import SymbolLinks.Json.Decode
import SymbolLinks.Language
import SymbolLinks.Text.Chars

/-! References to pages of a documentation bundle, and to the ends of
relationships, which need not have a page. -/

namespace SymbolLinks

/-- A page of a bundle. -/
structure PageReference where
  bundle : String
  /-- Language the page is shown in. -/
  language : Language
  /-- URL path, starting with `/documentation/`. -/
  path : String
  deriving DecidableEq

namespace PageReference

/-- The `doc://` URL of the page. -/
def url (r : PageReference) : String := "doc://" ++ r.bundle ++ r.path

def toJson (r : PageReference) : Json :=
  .object [("bundleId", .string r.bundle), ("language", r.language.toJson), ("path", .string r.path)]

def ofJson? (j : Json) : Option PageReference := do
  let r ← Json.record? ["bundleId", "language", "path"] j
  return {
    bundle := ← r.required? "bundleId" Json.text?
    language := .ofIdentifier (← r.required? "language" Json.text?)
    path := ← r.required? "path" Json.text? }

end PageReference

/-- Stands in for a symbol that is not part of the model. -/
structure Placeholder where
  language : Language
  /-- The URL the symbol would have if it were documented here. -/
  path : String
  id : String
  deriving DecidableEq

namespace Placeholder

/-- Whether an identifier can be part of a URL: it is not empty and has neither
blanks nor control characters. -/
def isAddressable (id : String) : Bool :=
  !id.isEmpty && !(id.toList.any fun c => Text.isBlank c || Text.isControl c)

def make? (id : String) (language : Language) (bundle : String) : Option Placeholder :=
  if isAddressable id then some ⟨language, "doc://" ++ bundle ++ "/documentation/" ++ id, id⟩
  else none

end Placeholder

/-- One end of a relationship. -/
inductive TopicReference where
  /-- A symbol of the model, by its identifier. -/
  | resolved (id : String)
  | unresolved (placeholder : Placeholder)
  deriving DecidableEq

namespace TopicReference

def id : TopicReference → String
  | .resolved id => id
  | .unresolved p => p.id

def toJson : TopicReference → Json
  | .resolved id => .object [("status", .string "resolved"), ("precise_id", .string id)]
  | .unresolved p =>
    .object [("status", .string "unresolved"), ("language", p.language.toJson),
      ("path", .string p.path), ("preciseId", .string p.id)]

end TopicReference

end SymbolLinks
