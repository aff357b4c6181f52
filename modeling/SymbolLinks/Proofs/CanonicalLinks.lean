import SymbolLinks.Proofs.CatalogTree
import SymbolLinks.Proofs.Walks
import SymbolLinks.Resolve

/-! Canonical URLs are links to their own pages. In documentation of one language every
symbol has one node, so every node is primary. There each segment of a URL, read as a
component, selects the node that it was written for, and what follows does not matter.
So a walk along the URL of a page ends at the node of its symbol. -/
namespace SymbolLinks

/-! ## Reading a URL -/

namespace Link

/-- The components behind the one in front of all modules. -/
theorem components_of_documentation {path raw : List Char} {rest : List (List Char)}
    (hpieces : Text.pieces '/' path = [] :: "documentation".toList :: raw :: rest) (hraw : raw ≠ [])
    (offset : Nat) : ∃ offset',
      (ofPath offset true path).components = componentsFrom offset' (raw :: rest) := by
  have hplain : Plain "documentation".toList := by decide
  obtain ⟨hspells, hsuffix⟩ := Component.parse_name hplain (offset + 1)
  have hall : componentsFrom offset (Text.pieces '/' path) =
      Component.parse "documentation".toList (offset + 1) ::
        componentsFrom (offset + 1 + Text.byteLength "documentation".toList + 1) (raw :: rest) := by
    rw [hpieces, componentsFrom, componentsFrom_cons (by decide)]
    rfl
  refine ⟨offset + 1 + Text.byteLength "documentation".toList + 1, ?_⟩
  show dropDocumentation (componentsFrom offset (Text.pieces '/' path)) = _
  rw [hall, componentsFrom_cons hraw, dropDocumentation, if_pos (hspells.full_eq hsuffix)]

/-- The link of a URL with some segments. -/
theorem parse_url {bundle : String} (hbundle : '/' ∉ bundle.toList) {segs : List String}
    (hne : segs ≠ []) (hempty : ∀ seg ∈ segs, seg ≠ "") (hslash : ∀ seg ∈ segs, '/' ∉ seg.toList)
    (hhash : ∀ seg ∈ segs, '#' ∉ seg.toList) : ∃ link offset,
      parse ("doc://" ++ bundle ++ ("/documentation" ++ PathTree.urlPath segs)) = .ok link ∧
      link.isAbsolute = true ∧ link.components = componentsFrom offset (segs.map String.toList) := by
  let below := "documentation".toList ++ (segs.map String.toList).flatMap ('/' :: ·)
  have hurl : "doc://" ++ bundle ++ ("/documentation" ++ PathTree.urlPath segs) =
      String.ofList ("doc://".toList ++ bundle.toList ++ '/' :: below) := by
    rw [← String.toList_inj, String.toList_ofList]
    simp [below, PathTree.toList_urlPath]
  have hfragment : Fragment ('/' :: below) [] := by
    refine ⟨?_, fun c hc => by cases hc⟩
    simpa [below] using hhash
  have hpieces : Text.pieces '/' ('/' :: below) =
      [] :: "documentation".toList :: segs.map String.toList := by
    show Text.pieces '/' ('/' :: below) = [[]] ++ "documentation".toList :: segs.map String.toList
    refine Text.pieces_eq_iff.mpr ⟨by simp [below], ?_⟩
    simpa using hslash
  have hstart : pathStart ("doc://".toList ++ bundle.toList ++ '/' :: below) =
      .ok (Text.byteLength ("doc://".toList ++ bundle.toList), true, '/' :: below ++ []) := by
    rw [List.append_nil]
    exact pathStart_bundle hbundle below
  obtain ⟨seg, rest, rfl⟩ := List.exists_cons_of_ne_nil hne
  have hseg : seg.toList ≠ [] := by simpa using hempty seg (by simp)
  obtain ⟨offset, hcomponents⟩ := components_of_documentation hpieces hseg
    (Text.byteLength ("doc://".toList ++ bundle.toList))
  refine ⟨_, offset, ?_, rfl, hcomponents⟩
  rw [hurl, parse_eq hstart hfragment, if_neg]
  rw [hcomponents, componentsFrom_cons hseg]
  simp

end Link

/-! ## Walking along segments -/

namespace PathTree

open Link (Component)

variable {fits : Labelling} {t : PathTree}

/-- The segment of an entry selects its node. -/
theorem step_segment (hinv : Inv fits t) (hfits : Legible fits) (hunique : NodesUnique t)
    (htags : TagsFit t) (hplain : PlainNames t) {p : NodeId} {n : Node} (hn : t.node? p = some n)
    {name : String} (hne : name ≠ "") {es : List Entry} (hes : t.group? p name = some es)
    {e : Entry} (he : e ∈ es) (offset : Nat) (next : Option Component) :
    t.step p (Component.parse (t.segment name e (t.suffix? n name e)).toList offset) next =
      .ok e.node := by
  have hname := hplain hes
  have hgroup := hinv.grouped _ _ _ hes
  have hfound : t.container? p name = some (p, es) := by
    rw [container?_of_alone (hunique.spellingsOf hinv.indexed p), hes]
    rfl
  have hprimary : ∀ e' ∈ es, t.isPrimary e'.node = true := fun e' he' =>
    hunique.isPrimary hinv.indexed (hinv.rooted.node_lt hes he')
  have hpeers : es ⊆ t.peers n name := fun e' he' =>
    mem_peers ((group?_of_node? hn name).symm.trans hes) he' (hprimary e' he') rfl
  rw [toList_segment, suffix?_of_primary (hprimary e he)]
  cases hd : e.disambiguator? (t.peers n name) with
  | none =>
    obtain ⟨hspells, hsuffix⟩ := Component.parse_name hname offset
    rw [suffixText, List.append_nil]
    refine step_only hplain hspells hfound ?_ next
    rw [hsuffix]
    exact eq_singleton_of_disambiguator? hgroup hpeers he hd
  | some d =>
    have hsymbols := SymbolGroup.of_disambiguator? hgroup he hd
    cases d with
    | hash hash =>
      obtain ⟨hspells, hasks⟩ := Component.parse_hash hne hname
        (hsymbols.isHash_hash hfits.toWritable he hd) (hsymbols.noKind_hash hfits he hd) offset
      exact step_only hplain hspells hfound (hsymbols.select_hash hfits.telling he hd hasks) next
    | kind kind =>
      obtain ⟨id, -, -, hid, -⟩ := hsymbols.labelled e he
      obtain ⟨l, htag, hl⟩ := htags hid
      obtain ⟨hspells, hasks⟩ := Component.parse_taggedKind hne hname htag
        (hsymbols.known_kind hfits.toWritable he hd) offset
      have hall : (some l).all (t.hasLanguage e.node) = true := hl
      exact step_only hplain hspells hfound (hsymbols.select_kind hpeers he hd hall hasks) next

/-- A walk along the segments on the way to a node comes by the node. -/
theorem walkFrom_at (hinv : Inv fits t) (hfits : Legible fits) (hunique : NodesUnique t)
    (htags : TagsFit t) (hplain : PlainNames t)
    (hne : ∀ {p : Nat} {name : String} {es : List Entry}, t.group? p name = some es → name ≠ "")
    {i : NodeId} {segs : List String} (h : At t i segs) (offset : Nat)
    (rest : List Component) :
    t.walkFrom root (Link.componentsFrom offset (segs.map String.toList) ++ rest) =
      t.walkFrom i rest := by
  induction h generalizing rest with
  | root => rfl
  | @child p n segs name es e above hn hes he ih =>
    have hseg : (t.segment name e (t.suffix? n name e)).toList ≠ [] := by
      rw [toList_segment]
      simp [hne hes]
    rw [List.map_append, Link.componentsFrom_append, List.map_singleton,
      Link.componentsFrom_cons hseg, List.append_assoc, ih]
    show t.walkFrom p (_ :: ([] ++ rest)) = _
    rw [walkFrom, step_segment hinv hfits hunique htags hplain hn (hne hes) hes he]
    rfl

theorem At.ne_empty
    (hne : ∀ {p : Nat} {name : String} {es : List Entry}, t.group? p name = some es → name ≠ "")
    {i : NodeId} {segs : List String} (h : At t i segs) : ∀ seg ∈ segs, seg ≠ "" := by
  induction h with
  | root =>
    intro seg hseg
    cases hseg
  | child above hn hes he ih =>
    intro seg hseg
    rcases List.mem_append.mp hseg with hseg | hseg
    · exact ih seg hseg
    · rw [List.mem_singleton.mp hseg, ← String.toList_inj.ne, toList_segment]
      simp [hne hes]

end PathTree

/-! ## Links to pages -/

theorem Destinations.resolve_of_find {d : Destinations} {authored : String} {link : Link}
    (hparse : Link.parse authored = .ok link) {origin : Option String} {i : NodeId}
    (hfind : d.tree.find link (origin.bind d.tree.primary.get?) = .ok i) {r : PageReference}
    (hpage : (d.tree.symbolAt? i).bind d.pageOf = some r) : d.resolve authored origin = .ok r := by
  simp only [resolve, hparse, hfind, hpage, Except.mapError, bind, Except.bind]
  rfl

namespace Catalog

open PathTree

/-- The link of a page's URL, and the node at which it ends from wherever it starts. -/
def LinksTo (c : Catalog) (r : PageReference) (i : NodeId) : Prop :=
  ∃ link, Link.parse r.url = .ok link ∧ ∀ start, c.tree.find link start = .ok i

theorem LinksTo.unique {c : Catalog} {r r' : PageReference} {i j : NodeId} (h : c.LinksTo r i)
    (h' : c.LinksTo r' j) (hurl : r.url = r'.url) : i = j := by
  obtain ⟨link, hparse, hfind⟩ := h
  obtain ⟨link', hparse', hfind'⟩ := h'
  rw [hurl, hparse'] at hparse
  cases hparse
  exact Except.ok.inj ((hfind none).symm.trans (hfind' none))

/-- A link that ends at a node resolves to the page of its symbol. -/
theorem LinksTo.resolve {c : Catalog} {r : PageReference} {i : NodeId} (h : c.LinksTo r i)
    {id : String} (hid : c.tree.symbolAt? i = some id) (hr : c.pages.get? id = some r)
    (origin : Option String) : (Destinations.ofCatalog c).resolve r.url origin = .ok r := by
  obtain ⟨link, hparse, hfind⟩ := h
  refine Destinations.resolve_of_find hparse (hfind _) ?_
  show (c.tree.symbolAt? i).bind c.pages.get? = some r
  rw [hid]
  exact hr

variable {graphs : List SymbolGraph} {o : CatalogOptions}

/-- The URL of a page ends at the node of its symbol. -/
theorem linksTo_page {l : Language} (hl : l = .swift ∨ l = .objectiveC)
    (hlanguage : ∀ g ∈ graphs, ∀ x ∈ g.symbols, x.language = l)
    (hbundle : '/' ∉ o.bundle.toList)
    (hnames : ∀ g ∈ graphs, ∀ name ∈ g.names,
      name ≠ "" ∧ '/' ∉ name.toList ∧ '#' ∉ name.toList ∧ Link.Plain name.toList)
    (hkinds : ∀ g ∈ graphs, ∀ x ∈ g.symbols, (Kind.known? x.kind.identifier.toList).isSome = true)
    (hdiffer : (build graphs o).1.HashesDiffer) (hhashes : (build graphs o).1.HashesNoKinds)
    {id : String} {r : PageReference} (hr : (build graphs o).1.pages.get? id = some r) :
    ∃ i, (build graphs o).1.tree.primary.get? id = some i ∧ (build graphs o).1.LinksTo r i := by
  have hlanguages : ∀ g ∈ graphs, ∀ x ∈ g.symbols,
      x.language = .swift ∨ x.language = .objectiveC := by
    intro g hg x hx
    rw [hlanguage g hg x hx]
    exact hl
  have hplain : (build graphs o).1.tree.PlainNames := by
    intro p name es hes
    obtain ⟨g, hg, hname, -⟩ := name_of_group? hes
    exact (hnames g hg name hname).2.2.2
  have hne : ∀ {p : Nat} {name : String} {es : List Entry},
      (build graphs o).1.tree.group? p name = some es → name ≠ "" := by
    intro p name es hes
    obtain ⟨g, hg, hname, -⟩ := name_of_group? hes
    exact (hnames g hg name hname).1
  have hinv := (growth_tree graphs o).inv
  have hfits := legible hkinds hdiffer hhashes
  have hunique : (build graphs o).1.tree.NodesUnique := nodesUnique hlanguage
  obtain ⟨i, segs, hi, hat, hpath, hb⟩ := at_of_page hr
  have hsegs : segs ≠ [] := by
    intro hnil
    rw [hnil] at hat
    rw [hat.eq_root] at hi
    cases hinv.root_symbol.symm.trans (hinv.indexed.primary_mem hi)
  have hslash := hat.not_mem hinv hfits.toWritable (tagsKnown hlanguages)
    (namesLack fun g hg name hname => (hnames g hg name hname).2.1)
    (by decide) (by decide) (by decide)
  have hhash := hat.not_mem hinv hfits.toWritable (tagsKnown hlanguages)
    (namesLack fun g hg name hname => (hnames g hg name hname).2.2.1)
    (by decide) (by decide) (by decide)
  obtain ⟨link, offset, hparse, habs, hcomponents⟩ := Link.parse_url hbundle hsegs
    (hat.ne_empty hne) hslash hhash
  refine ⟨i, hi, link, ?_, fun start => ?_⟩
  · rw [PageReference.url, hb, hpath]
    exact hparse
  · have horigin : (build graphs o).1.tree.origin link start = root := by
      unfold origin
      split
      · rw [if_pos habs]
      · rfl
    have hwalk := walkFrom_at hinv hfits hunique (tagsFit hlanguages) hplain hne hat offset []
    rw [find_eq_walkFrom, horigin, hcomponents]
    simpa [walkFrom] using hwalk

/-- Canonical references are links to themselves. In documentation of one language, Swift
or Objective-C, whose names and kinds can be read back from links, the URL of a symbol's
page is a link that ends at the primary node of the symbol, wherever it is followed
from, and resolves to the page. So no other symbol has that URL. -/
theorem canonical_references_resolve (graphs : List SymbolGraph) (o : CatalogOptions)
    {l : Language} (hl : l = .swift ∨ l = .objectiveC)
    (hlanguage : ∀ g ∈ graphs, ∀ x ∈ g.symbols, x.language = l)
    (hbundle : '/' ∉ o.bundle.toList)
    (hnames : ∀ g ∈ graphs, ∀ name ∈ g.names,
      name ≠ "" ∧ '/' ∉ name.toList ∧ '#' ∉ name.toList ∧ Link.Plain name.toList)
    (hkinds : ∀ g ∈ graphs, ∀ x ∈ g.symbols, (Kind.known? x.kind.identifier.toList).isSome = true)
    {c : Catalog} (hc : c = (build graphs o).1) (hdiffer : c.HashesDiffer)
    (hhashes : c.HashesNoKinds) {id : String} {r : PageReference}
    (hr : c.pages.get? id = some r) :
    (∃ link i, Link.parse r.url = .ok link ∧ c.tree.primary.get? id = some i ∧
      ∀ start, c.tree.find link start = .ok i) ∧
    (∀ origin, (Destinations.ofCatalog c).resolve r.url origin = .ok r) ∧
    ∀ id' r', c.pages.get? id' = some r' → r'.url = r.url → id' = id := by
  subst hc
  have hpages : ∀ {id : String} {r : PageReference}, (build graphs o).1.pages.get? id = some r →
      ∃ i, (build graphs o).1.tree.primary.get? id = some i ∧ (build graphs o).1.LinksTo r i :=
    linksTo_page hl hlanguage hbundle hnames hkinds hdiffer hhashes
  have hindexed := (growth_tree graphs o).inv.indexed
  obtain ⟨i, hi, hlinks⟩ := hpages hr
  have hsymbol := hindexed.primary_mem hi
  refine ⟨?_, hlinks.resolve hsymbol hr, fun id' r' hr' hurl => ?_⟩
  · obtain ⟨link, hparse, hfind⟩ := hlinks
    exact ⟨link, i, hparse, hi, hfind⟩
  · obtain ⟨j, hj, hlinks'⟩ := hpages hr'
    have hsymbol' := hindexed.primary_mem hj
    rw [hlinks'.unique hlinks hurl, hsymbol] at hsymbol'
    exact (Option.some.inj hsymbol').symm

theorem canonical_references_resolve_widgets : ∃ r s,
    widgets.pages.get? "s:V" = some r ∧ r.path = "/documentation/Kit/widget-swift.struct" ∧
    widgets.pages.get? "c:W.spin" = some s ∧
    ∀ origin, (Destinations.ofCatalog widgets).resolve r.url origin = .ok r ∧
      (Destinations.ofCatalog widgets).resolve s.url origin = .ok s := by
  have hhashes := hashes_of_perm (c := widgets) (by decide +kernel)
  have htree : widgets.tree = _ := build_of_sorted (by decide +kernel) _
  have hpages : (widgets.pages.get? "s:V").map (·.path) =
      some "/documentation/Kit/widget-swift.struct" ∧
        (widgets.pages.get? "c:W.spin").isSome = true := by
    rw [widgets, pages_build, ← widgets, htree]
    decide +kernel
  obtain ⟨r, hr, hpath⟩ := Option.map_eq_some_iff.mp hpages.1
  obtain ⟨s, hs⟩ := Option.isSome_iff_exists.mp hpages.2
  have hresolve : ∀ {id : String} {r : PageReference}, widgets.pages.get? id = some r →
      ∀ origin, (Destinations.ofCatalog widgets).resolve r.url origin = .ok r := fun h =>
    (canonical_references_resolve [widgetGraph] ⟨"org.example.kit", false⟩ (.inl rfl) (by decide)
      (by decide) (by decide) (by decide) rfl hhashes.1 hhashes.2 h).2.1
  exact ⟨r, s, hr, hpath, hs, fun origin => ⟨hresolve hr origin, hresolve hs origin⟩⟩

end Catalog

end SymbolLinks
