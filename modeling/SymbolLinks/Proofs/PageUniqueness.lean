import SymbolLinks.Proofs.CatalogTree
import SymbolLinks.Proofs.LinkText

/-! Which pages have a path of their own. Suffixes tell primary nodes below one node
apart. A node that is not primary, another spelling of its symbol, takes no part in the
choice of suffixes. So two ways have the same segments only if they part at namesakes:
nodes of one name below one node that both go without a suffix. Pages below namesakes
may have the same path. -/
namespace SymbolLinks.PathTree

variable {fits : Labelling} {t : PathTree}

/-! ## Segments of siblings -/

/-- If the node is primary, no other primary node beside it has its name without regard
to case. -/
def Peerless (t : PathTree) (i : NodeId) : Prop :=
  t.isPrimary i = true → ∀ j, t.isPrimary j = true → t.parentAt? j = t.parentAt? i →
    (t.nameAt? j).map Text.lowercase = (t.nameAt? i).map Text.lowercase → j = i

/-- Two nodes of one name below one node that have no suffixes to tell them apart. At
most one of them is primary. -/
structure Namesakes (t : PathTree) (i j : NodeId) : Prop where
  ne : i ≠ j
  parent : t.parentAt? i = t.parentAt? j
  name : t.nameAt? i = t.nameAt? j
  left : Peerless t i
  right : Peerless t j

section Siblings

variable {p : NodeId} {n : Node} {name : String} {es : List Entry} {e e' : Entry}

theorem dot_not_mem_hash (hfits : Writable fits) (hes : SymbolGroup fits t es) (he : e ∈ es)
    {group : List Entry} {hash : String} (h : e.disambiguator? group = some (.hash hash)) :
    '.' ∉ hash.toList :=
  ShortHash.not_mem_of_isHash (hes.isHash_hash hfits he h) (by decide)

theorem eq_of_suffixText_eq (hfits : Writable fits) (htags : TagsKnown t)
    (hgroup : SymbolGroup fits t es) (he : e ∈ es) (he' : e' ∈ es) {group : List Entry}
    (hg : e ∈ group) (hg' : e' ∈ group) {d d' : Disambiguator}
    (hd : e.disambiguator? group = some d) (hd' : e'.disambiguator? group = some d')
    (h : t.suffixText e.node (some d) = t.suffixText e'.node (some d')) : e = e' := by
  cases d with
  | hash hash =>
    have hdot := dot_not_mem_hash hfits hgroup he hd
    cases d' with
    | hash hash' =>
      have hsame : hash = hash' := String.toList_inj.mp (List.cons.inj h).2
      refine hgroup.eq_of_hash hfits.telling he he' ?_
      rw [Entry.disambiguator?_eq_hash hd, Entry.disambiguator?_eq_hash hd', hsame]
    | kind kind' =>
      -- A kind stands behind a tag and a dot, and a hash has no dot.
      rw [(List.cons.inj h).2] at hdot
      simp at hdot
  | kind kind =>
    cases d' with
    | hash hash' =>
      have hdot := dot_not_mem_hash hfits hgroup he' hd'
      rw [← (List.cons.inj h).2] at hdot
      simp at hdot
    | kind kind' =>
      obtain ⟨l, hl⟩ := htags e.node
      obtain ⟨l', hl'⟩ := htags e'.node
      have hcut := congrArg (Text.cutAt '.') (List.cons.inj h).2
      rw [Text.cutAt_append (Language.not_mem_of_ofLinkTag? hl (by decide)),
        Text.cutAt_append (Language.not_mem_of_ofLinkTag? hl' (by decide))] at hcut
      have hsame : kind = kind' := String.toList_inj.mp (Prod.mk.inj (Option.some.inj hcut)).2
      have hkind : e.kind = some kind' := hsame ▸ (Entry.disambiguator?_eq_kind hd).1
      exact Entry.eq_of_disambiguator?_eq_kind hd' hg' hg hkind

theorem peerless_of_no_suffix (hrooted : Rooted t) (hn : t.node? p = some n)
    (hes : t.group? p name = some es) (hgroup : SymbolGroup fits t es) (he : e ∈ es)
    (h : t.suffix? n name e = none) : Peerless t e.node := by
  intro hprimary j hj hparent hname
  obtain ⟨hp, hm⟩ := hrooted.below hes e he
  rw [hp] at hparent
  rw [hm] at hname
  obtain ⟨name', hname', hlower⟩ := Option.map_eq_some_iff.mp hname
  obtain ⟨e', hmem, rfl⟩ := hrooted.listed hparent hname'
  obtain ⟨es', hes', he'⟩ := mem_entries_iff.mp hmem
  rw [group?_of_node? hn] at hes hes'
  rw [suffix?_of_primary hprimary] at h
  rcases Entry.length_le_of_disambiguator?_eq_none h with hlength | hhash
  · rw [eq_of_length_le_one hlength (mem_peers hes' he' hj hlower) (mem_peers hes he hprimary rfl)]
  · obtain ⟨id, hash, kind, -, hsome, -⟩ := hgroup.labelled e he
    cases hhash.symm.trans hsome

theorem namesakes_of_no_suffix (hinv : Inv fits t) (hn : t.node? p = some n)
    (hes : t.group? p name = some es) (he : e ∈ es) (he' : e' ∈ es)
    (h : t.suffix? n name e = none) (h' : t.suffix? n name e' = none) (hne : e ≠ e') :
    Namesakes t e.node e'.node := by
  have hgroup : SymbolGroup fits t es := by
    rcases hinv.grouped _ _ _ hes with ⟨i, rfl, -⟩ | hgroup
    · exact absurd ((List.mem_singleton.mp he).trans (List.mem_singleton.mp he').symm) hne
    · exact hgroup
  obtain ⟨hparent, hname⟩ := hinv.rooted.below hes e he
  obtain ⟨hparent', hname'⟩ := hinv.rooted.below hes e' he'
  exact {
    ne := fun hnode => hne (List.inj_on_of_nodup_map (hinv.rooted.nodup hes) he he' hnode)
    parent := hparent.trans hparent'.symm
    name := hname.trans hname'.symm
    left := peerless_of_no_suffix hinv.rooted hn hes hgroup he h
    right := peerless_of_no_suffix hinv.rooted hn hes hgroup he' h' }

theorem takeWhile_segment {name : String} (h : '-' ∉ name.toList) (e : Entry)
    (d : Option Disambiguator) : (t.segment name e d).toList.takeWhile (· != '-') = name.toList := by
  rw [toList_segment]
  cases d with
  | none => rw [suffixText, List.append_nil, Text.takeWhile_ne_eq_self h]
  | some d => cases d <;> exact Text.takeWhile_ne_append h _

theorem eq_or_namesakes_of_segment_eq (hinv : Inv fits t) (hfits : Writable fits)
    (htags : TagsKnown t) (hdash : NamesLack t '-') (hn : t.node? p = some n) {name' : String}
    {es' : List Entry} (hes : t.group? p name = some es) (he : e ∈ es)
    (hes' : t.group? p name' = some es') (he' : e' ∈ es')
    (h : t.segment name e (t.suffix? n name e) = t.segment name' e' (t.suffix? n name' e')) :
    e = e' ∨ Namesakes t e.node e'.node := by
  -- The name of a segment is what stands in front of its first dash.
  have hname : name = name' := by
    rw [← String.toList_inj, ← takeWhile_segment (hdash hes) e, h, takeWhile_segment (hdash hes')]
  subst hname
  cases hes.symm.trans hes'
  have htext := congrArg String.toList h
  rw [toList_segment, toList_segment, List.append_cancel_left_eq] at htext
  cases hd : t.suffix? n name e with
  | none =>
    rw [hd, suffixText] at htext
    have hd' := suffixText_eq_nil_iff.mp htext.symm
    by_cases heq : e = e'
    · exact .inl heq
    · exact .inr (namesakes_of_no_suffix hinv hn hes he he' hd hd' heq)
  | some d =>
    cases hd' : t.suffix? n name e' with
    | none =>
      rw [hd, hd', suffixText, suffixText_eq_nil_iff] at htext
      cases htext
    | some d' =>
      obtain ⟨hprimary, hchoice⟩ := suffix?_eq_some_iff.mp hd
      obtain ⟨hprimary', hchoice'⟩ := suffix?_eq_some_iff.mp hd'
      have hgroup := SymbolGroup.of_disambiguator? (hinv.grouped _ _ _ hes) he hchoice
      rw [group?_of_node? hn] at hes
      rw [hd, hd'] at htext
      exact .inl (eq_of_suffixText_eq hfits htags hgroup he he' (mem_peers hes he hprimary rfl)
        (mem_peers hes he' hprimary' rfl) hchoice hchoice' htext)

end Siblings

/-! ## Segments from the root down -/

/-- Two ways with the same segments lead to one node or part at namesakes. -/
theorem At.eq_or_namesakes (hinv : Inv fits t) (hfits : Writable fits) (htags : TagsKnown t)
    (hdash : NamesLack t '-') {i j : NodeId} {segs : List String} (hi : At t i segs)
    (hj : At t j segs) : i = j ∨ ∃ u ∈ t.lineage i, ∃ v ∈ t.lineage j, Namesakes t u v := by
  induction hi generalizing j with
  | root => exact .inl hj.eq_root.symm
  | @child p n segs name es e above hn hes he ih =>
    generalize hsegs : segs ++ [t.segment name e (t.suffix? n name e)] = segs' at hj
    cases hj with
    | root => simp at hsegs
    | @child p' n' _ name' es' e' above' hn' hes' he' =>
      obtain ⟨rfl, hseg⟩ := List.append_singleton_inj.mp hsegs
      rw [hinv.rooted.lineage_child (hinv.rooted.below hes e he).1,
        hinv.rooted.lineage_child (hinv.rooted.below hes' e' he').1]
      rcases ih above' with rfl | ⟨u, hu, v, hv, huv⟩
      · cases hn.symm.trans hn'
        rcases eq_or_namesakes_of_segment_eq hinv hfits htags hdash hn hes he hes' he' hseg with
          rfl | hnamesakes
        · exact .inl rfl
        · exact .inr ⟨_, List.mem_cons_self, _, List.mem_cons_self, hnamesakes⟩
      · exact .inr ⟨u, List.mem_cons_of_mem _ hu, v, List.mem_cons_of_mem _ hv, huv⟩

theorem urlPath_inj {segs segs' : List String} (h : ∀ seg ∈ segs, '/' ∉ seg.toList)
    (h' : ∀ seg ∈ segs', '/' ∉ seg.toList) (heq : urlPath segs = urlPath segs') : segs = segs' := by
  have hpieces : ∀ {segs : List String}, (∀ seg ∈ segs, '/' ∉ seg.toList) →
      Text.pieces '/' (urlPath segs).toList = [] :: segs.map String.toList := by
    intro segs hsegs
    show Text.pieces '/' (urlPath segs).toList = [] ++ [] :: segs.map String.toList
    refine Text.pieces_eq_iff.mpr ⟨?_, ?_⟩
    · rw [toList_urlPath]
      rfl
    · simpa using hsegs
  have hmaps := (hpieces h).symm.trans ((congrArg (fun path => Text.pieces '/' path.toList) heq).trans
    (hpieces h'))
  exact List.map_injective_iff.mpr (fun _ _ => String.toList_inj.mp) (List.cons.inj hmaps).2

end SymbolLinks.PathTree

namespace SymbolLinks.Catalog

open PathTree

/-! ## Pages of a catalog -/

/-- Two symbols of Swift and Objective-C graphs, whose names have no slash and no dash,
have different pages unless the ways to their primary nodes part at namesakes. -/
theorem pages_differ_unless_namesakes (graphs : List SymbolGraph) (o : CatalogOptions)
    (hlanguages : ∀ g ∈ graphs, ∀ x ∈ g.symbols, x.language = .swift ∨ x.language = .objectiveC)
    (hslash : ∀ g ∈ graphs, ∀ name ∈ g.names, '/' ∉ name.toList)
    (hdash : ∀ g ∈ graphs, ∀ name ∈ g.names, '-' ∉ name.toList)
    (hkinds : ∀ g ∈ graphs, ∀ x ∈ g.symbols, (Kind.known? x.kind.identifier.toList).isSome = true)
    {c : Catalog} (hc : c = (build graphs o).1) (hdiffer : c.HashesDiffer)
    {a b : String} {r s : PageReference} (ha : c.pages.get? a = some r)
    (hb : c.pages.get? b = some s)
    (hclear : ∀ i j, c.tree.primary.get? a = some i → c.tree.primary.get? b = some j →
      ∀ u ∈ c.tree.lineage i, ∀ v ∈ c.tree.lineage j, ¬Namesakes c.tree u v)
    (hne : a ≠ b) : r.path ≠ s.path := by
  subst hc
  intro hpath
  have hinv := (growth_tree graphs o).inv
  have hwritable := writable hkinds hdiffer
  have htags := tagsKnown (o := o) hlanguages
  obtain ⟨i, segs, hi, hat, hr, -⟩ := at_of_page ha
  obtain ⟨j, segs', hj, hat', hs, -⟩ := at_of_page hb
  have hsegs : segs = segs' := by
    refine urlPath_inj ?_ ?_ ?_
    · exact hat.not_mem hinv hwritable htags (namesLack hslash) (by decide) (by decide) (by decide)
    · exact hat'.not_mem hinv hwritable htags (namesLack hslash) (by decide) (by decide) (by decide)
    · rw [hr, hs] at hpath
      exact String.append_right_inj _ |>.mp hpath
  subst hsegs
  rcases hat.eq_or_namesakes hinv hwritable htags (namesLack hdash) hat' with
    rfl | ⟨u, hu, v, hv, hnamesakes⟩
  · exact hne (Option.some.inj
      ((hinv.indexed.primary_mem hi).symm.trans (hinv.indexed.primary_mem hj)))
  · exact hclear i j hi hj u hu v hv hnamesakes

/-- A class `c:W` with an Objective-C name of its own, below which it has a method that
Swift does not have. Beside it stands a Swift class of some name with a method of the
same name. -/
def rivalGraphs (name : String) : List SymbolGraph :=
  let symbol := fun (language : Language) (kind : Kind) (id : String) (path : List String) =>
    ({ language, id, kind, title := id, path } : GraphSymbol)
  [{ moduleName := "Kit", symbols := [
      symbol .swift .class_ "s:V" [name], symbol .swift .class_ "c:W" ["Widget"],
      symbol .swift .method "s:V.spin" [name, "spin"]] },
    { moduleName := "Kit", symbols := [
      symbol .objectiveC .class_ "c:W" ["KITWidget"],
      symbol .objectiveC .method "c:W.spin" ["KITWidget", "spin"]] }]

def rivals (name : String) : Catalog := (build (rivalGraphs name) ⟨"org.example.kit", false⟩).1

theorem pages_differ_unless_namesakes_rivals : ∃ r s,
    (rivals "KitWidget").pages.get? "c:W.spin" = some r ∧
    (rivals "KitWidget").pages.get? "s:V.spin" = some s ∧ r.path ≠ s.path := by
  have hhashes := hashes_of_perm (c := rivals "KitWidget") (by decide +kernel)
  have htree : (rivals "KitWidget").tree = _ := build_of_sorted (by decide +kernel) _
  have hclear : ∀ i j, (rivals "KitWidget").tree.primary.get? "c:W.spin" = some i →
      (rivals "KitWidget").tree.primary.get? "s:V.spin" = some j →
      ∀ u ∈ (rivals "KitWidget").tree.lineage i, ∀ v ∈ (rivals "KitWidget").tree.lineage j,
        ¬Namesakes (rivals "KitWidget").tree u v := by
    -- No two nodes on the ways have one name below one node.
    have hall : ((rivals "KitWidget").tree.primary.get? "c:W.spin").all (fun i =>
        ((rivals "KitWidget").tree.primary.get? "s:V.spin").all fun j =>
          ((rivals "KitWidget").tree.lineage i).all fun u =>
            ((rivals "KitWidget").tree.lineage j).all fun v =>
              decide ((rivals "KitWidget").tree.parentAt? u = (rivals "KitWidget").tree.parentAt? v →
                (rivals "KitWidget").tree.nameAt? u = (rivals "KitWidget").tree.nameAt? v →
                u = v)) = true := by
      rw [htree]
      decide +kernel
    intro i j hi hj u hu v hv hnamesakes
    rw [hi, hj] at hall
    have hsame := List.all_eq_true.mp (List.all_eq_true.mp hall u hu) v hv
    exact hnamesakes.ne (of_decide_eq_true hsame hnamesakes.parent hnamesakes.name)
  have hpages : ((rivals "KitWidget").pages.get? "c:W.spin").isSome = true ∧
      ((rivals "KitWidget").pages.get? "s:V.spin").isSome = true := by
    rw [rivals, pages_build, ← rivals, htree]
    decide +kernel
  obtain ⟨r, hr⟩ := Option.isSome_iff_exists.mp hpages.1
  obtain ⟨s, hs⟩ := Option.isSome_iff_exists.mp hpages.2
  refine ⟨r, s, hr, hs, ?_⟩
  exact pages_differ_unless_namesakes (rivalGraphs "KitWidget") ⟨"org.example.kit", false⟩
    (by decide) (by decide) (by decide) (by decide) rfl hhashes.1 hr hs hclear (by decide)

/-- Below the Objective-C name of its class, a method has the page of a method of the
Swift class of that name. -/
theorem pages_collide_below_namesakes : (rivals "KITWidget").HashesDiffer ∧ ∃ r s,
    (rivals "KITWidget").pages.get? "c:W.spin" = some r ∧
    (rivals "KITWidget").pages.get? "s:V.spin" = some s ∧
    r.path = "/documentation/Kit/KITWidget/spin" ∧ s.path = r.path := by
  have hhashes := hashes_of_perm (c := rivals "KITWidget") (by decide +kernel)
  have htree : (rivals "KITWidget").tree = _ := build_of_sorted (by decide +kernel) _
  have hpages : (rivals "KITWidget").pages.get? "c:W.spin" =
        some ⟨"org.example.kit", .objectiveC, "/documentation/Kit/KITWidget/spin"⟩ ∧
      (rivals "KITWidget").pages.get? "s:V.spin" =
        some ⟨"org.example.kit", .swift, "/documentation/Kit/KITWidget/spin"⟩ := by
    rw [rivals, pages_build, ← rivals, htree]
    decide +kernel
  exact ⟨hhashes.1, _, _, hpages.1, hpages.2, rfl, rfl⟩

end SymbolLinks.Catalog
