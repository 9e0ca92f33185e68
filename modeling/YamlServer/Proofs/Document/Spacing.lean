import YamlServer.Proofs.Document.Conversion
import YamlServer.Proofs.Document.Layout
import YamlServer.Proofs.Tree.Contents
import YamlServer.Proofs.Yaml.NodeGap

/-!
# The contents of a document never touch

The values of a map come from the values of a composed mapping, and the items of a sequence from
those of a composed one. They keep their places, and the composed ones stand apart.

* `DocumentSet.spaced_of_parse`: the tree of every document of a text is spaced.
-/

namespace YamlServer

open Yaml Outcome

namespace Tree

variable {a : Attached}

/-! ## Contents and parts -/

theorem Numbers.range? {n : Node} {numbered : Nat × Tree} (h : Numbers a n numbered) :
    numbered.2.range? = some n.extent :=
  (h.mirrors none).range

/-- Each entry of a mapping gives one content, its value. -/
theorem filterMap_contentOf? {entries : List (Node × Node)} {numbered : List (Nat × Tree)}
    (h : List.Forall₂ (NumbersPair a) entries numbered) :
    (numbered.filterMap fun e => contentOf? e.1 e.2).map (·.node.range?) =
      entries.map fun e => some e.2.extent := by
  induction h with
  | nil => rfl
  | @cons e pair entries numbered hpair _ ih =>
    rcases pair with ⟨i, t⟩
    rcases hpair with ⟨key, value, rfl, -, hvalue⟩
    have hrange : value.range? = some e.2.extent := hvalue.range?
    have hcontent : contentOf? i (.pair (some key) (some value)) = some
        ⟨.member (Tree.pair (some key) (some value)).keyText?, i + 1 + key.size, value⟩ := rfl
    simp only [List.filterMap_cons, hcontent, List.map_cons, ih, hrange]

/-- The contents of a tree have the ranges of the parts of its node. -/
theorem map_range?_contents {n : Node} {numbered : Nat × Tree} (h : Numbers a n numbered) :
    (numbered.2.contents numbered.1).map (·.node.range?) =
      n.parts.map fun m => some m.extent := by
  rcases numbered with ⟨lo, t⟩
  cases n with
  | scalar =>
    rcases bind_eq_ok.1 h.2 with ⟨value, -, hlast⟩
    cases hlast
    rfl
  | «alias» =>
    have ht := h.2
    cases ht
    rfl
  | sequence id span tag items =>
    rcases bind_eq_ok.1 h.2 with ⟨ts, hts, hlast⟩
    cases hlast
    dsimp only [contents, Node.parts]
    rw [List.map_map]
    refine (Abreast.map_eq_map (forall₂_imageItems h.1.2 hts) ?_).symm
    intro m numbered hm
    exact hm.range?.symm
  | mapping id span tag entries =>
    rcases bind_eq_ok.1 h.2 with ⟨ts, hts, hlast⟩
    cases hlast
    dsimp only [contents, Node.parts]
    rw [filterMap_contentOf? (forall₂_imageEntries h.1.2 hts), List.map_map]
    rfl

/-- A node of a tree that is no pair is the tree of a composed node. -/
theorem exists_numbers {root : Node} {t : Tree} (hroot : root.Numbered 0)
    (ht : image a root = .ok t) {p : Place} (hp : p ∈ t.places) (hpair : p.node.isPair = false) :
    ∃ n ∈ root.walk, Numbers a n (p.id, p.node) := by
  have hmirrors : List.Forall₂ Mirrors root.walk (withoutPairs t.visits) :=
    forall₂_mirrors root none (0, t) ⟨hroot, ht⟩
  have hvisit : p.visit ∈ withoutPairs t.visits :=
    List.mem_filter.2 ⟨visit_mem hp, by rw [Place.visit, hpair]; rfl⟩
  rcases Abreast.exists_of_mem hmirrors.flip hvisit with ⟨n, hn, hmirror⟩
  rcases nodeAt?_of_mem_walk hroot ht hn with ⟨hnumbered, -, t', hplace, htree⟩
  -- The number of the node leads to its tree, and to the place that mirrors it.
  have hid : p.id = n.id := hmirror.id
  rw [← hid, nodeAt?_place hp] at hplace
  cases hplace
  exact ⟨n, hn, hid ▸ hnumbered, htree⟩

/-! ## Spaced trees -/

theorem Nested.isPair {t : Tree} (h : t.Nested) : t.isPair = false := by
  cases h <;> rfl

/-- The children of a map are pairs, and no other node has pairs for children. -/
theorem Settled.isPair_child {root t c : Tree} {around : Option Tree} (h : Settled root around t)
    (hc : c ∈ t.children) : c.isPair = true ↔ ∃ info entries, t = .map info entries := by
  have hnone : c.isPair = false → (∀ info entries, t ≠ .map info entries) →
      (c.isPair = true ↔ ∃ info entries, t = .map info entries) := by
    intro hpair hmap
    rw [hpair]
    constructor
    · intro hfalse
      cases hfalse
    · rintro ⟨info, entries, heq⟩
      exact absurd heq (hmap info entries)
  cases h with
  | ranged t hnested _ _ =>
    cases hnested with
    | scalar => cases hc
    | «alias» => cases hc
    | sequence info items s e _ _ _ hitems => exact hnone (hitems c hc).isPair (by simp)
    | map info pairs s e _ _ _ _ =>
      rcases List.mem_map.1 hc with ⟨p, -, rfl⟩
      exact iff_of_true rfl ⟨info, _, rfl⟩
  | pair key value hkey hvalue _ _ _ _ =>
    refine hnone ?_ (by simp)
    rcases List.mem_cons.1 hc with rfl | hc
    · exact hkey.isPair
    · rcases List.mem_singleton.1 hc with rfl
      exact hvalue.isPair

theorem contents_of_isPair {id : Nat} {t : Tree} (h : t.isPair = true) : t.contents id = [] := by
  cases t with
  | pair key value => rfl
  | _ => cases h

/-- The ranges of the contents of a node start after it does, and after those before them stop. -/
theorem contents_apart {root : Node} {t : Tree} (hroot : root.Numbered 0)
    (ht : image a root = .ok t) (hparted : root.Parted) {p : Place} (hp : p ∈ t.places) :
    (∀ c ∈ p.node.contents p.id, ∃ r r', p.node.range? = some r ∧ c.node.range? = some r' ∧
      r.1 < r'.1) ∧
    (p.node.contents p.id).Pairwise fun b c =>
      ∃ r r', b.node.range? = some r ∧ c.node.range? = some r' ∧ r.2 < r'.1 := by
  cases hpair : p.node.isPair with
  | true =>
    rw [contents_of_isPair hpair]
    refine ⟨?_, List.Pairwise.nil⟩
    intro c hc
    cases hc
  | false =>
    rcases exists_numbers hroot ht hp hpair with ⟨n, hn, hnumbers⟩
    rcases (hparted n hn).apart with ⟨hafter, hpairwise⟩
    have hranges := map_range?_contents hnumbers
    dsimp only at hranges
    constructor
    · intro c hc
      have hmem : c.node.range? ∈ (p.node.contents p.id).map (·.node.range?) :=
        List.mem_map_of_mem hc
      rw [hranges] at hmem
      rcases List.mem_map.1 hmem with ⟨m, hm, hrange⟩
      exact ⟨_, _, hnumbers.range?, hrange.symm, hafter _ (List.mem_map_of_mem hm)⟩
    · have hsome : ((p.node.contents p.id).map (·.node.range?)).Pairwise fun o o' =>
          ∃ r r', o = some r ∧ o' = some r' ∧ r.2 < r'.1 := by
        rw [hranges]
        refine List.pairwise_map.2 ((List.pairwise_map.1 hpairwise).imp ?_)
        intro m m' hlt
        exact ⟨_, _, rfl, rfl, hlt⟩
      exact List.pairwise_map.1 hsome

/-- The tree of a nested node whose parts stand apart is spaced. -/
theorem spaced_image {root : Node} {t : Tree} (hroot : root.Numbered 0)
    (ht : image a root = .ok t) (hnested : root.Nested) (hparted : root.Parted) : t.Spaced := by
  have htree := (nested_image hnested t ht).1
  -- Every visit is a place, and settled.
  have hplaces : ∀ {motive : Visit → Prop}, (∀ p ∈ t.places, motive p.visit) →
      ∀ v ∈ t.visits, motive v := by
    intro motive h v hv
    rw [visits_eq_places] at hv
    rcases List.mem_map.1 hv with ⟨p, hp, rfl⟩
    exact h p hp
  refine ⟨htree.isPair, hplaces ?_, hplaces ?_, hplaces ?_, hplaces ?_, hplaces ?_⟩
  · intro p hp c hc
    exact (htree.settled hp).isPair_child hc
  · intro p hp hpair
    have hsettled := htree.settled hp
    dsimp only [Place.visit] at hpair ⊢
    generalize p.node = u at hsettled hpair
    cases hsettled with
    | ranged u hu _ _ => exact ⟨_, _, hu.range?_eq, hu.range.2.2⟩
    | pair key value => cases hpair
  · intro p hp u hu r r' hr hr'
    have hsettled := htree.settled hp
    dsimp only [Place.visit] at hu hr
    rw [← extent_of_range? hr, ← extent_of_range? hr']
    generalize p.node = w at hsettled hr
    cases hsettled with
    | ranged w _ _ haround => exact haround u hu
    | pair key value => cases hr
  · intro p hp
    refine (contents_apart hroot ht hparted hp).2.imp ?_
    rintro b c ⟨r, r', hr, hr', hlt⟩ offset hheld
    rw [contains, hr] at hheld
    rw [contains, hr']
    simp only [Bool.and_eq_true, decide_eq_true_eq, Int.ofNat_eq_natCast] at hheld
    simp only [Bool.and_eq_false_iff, decide_eq_false_iff_not, Int.ofNat_eq_natCast]
    omega
  · intro p hp c hc heq
    rcases (contents_apart hroot ht hparted hp).1 c hc with ⟨r, r', hr, hr', hlt⟩
    rcases r with ⟨s, e⟩
    rcases r' with ⟨s', e'⟩
    rw [start?_of_range? hr'] at heq
    cases heq.trans (start?_of_range? hr)
    exact Nat.lt_irrefl _ hlt

end Tree

/-! ## Texts -/

namespace DocumentSet

/-- The tree of a document of a text is that of a nested node whose parts stand apart. -/
theorem exists_parted_of_parse {source : String} {customTags : List String} {set : DocumentSet}
    {d : Document} {root : Tree} (h : parse source customTags = .ok set) (hd : d ∈ set.documents)
    (hroot : d.root = some root) :
    ∃ a n, Tree.image a n = .ok root ∧ n.Numbered 0 ∧ n.Nested ∧ n.Parted := by
  rcases exists_share h hd with ⟨⟨c, comments⟩, hshare, hresolved, hof⟩
  rcases Document.exists_node_of_root hresolved hof hroot with ⟨n, hn, htree⟩
  have hc : c ∈ Composed.ofEvents source.toList.length (eventsOf source) :=
    (List.of_mem_zip hshare).1
  have htokens := TokenStream.inOrder_ofChars source.toList
  have hspread := EventStream.spread_ofTokens (TokenStream.written_ofChars source.toList) htokens
  rcases Composed.exists_root_of_mem hc hn with ⟨own, after, -, hread⟩
  refine ⟨_, n, htree, NodeReader.numbered_root hread, ?_, ?_⟩
  · exact (placed_ofChars source.toList c hc n hn).1
  · exact Composed.parted_ofEvents (EventStream.inOrder_ofTokens htokens) hspread c hc n hn

section

variable {source : String} {customTags : List String} {set : DocumentSet} {d : Document}
  {root : Tree}

/-- The tree of every document of a text is spaced. -/
theorem spaced_of_parse (h : parse source customTags = .ok set) (hd : d ∈ set.documents)
    (hroot : d.root = some root) : root.Spaced := by
  rcases exists_parted_of_parse h hd hroot with ⟨a, n, htree, hnumbered, hnested, hparted⟩
  exact Tree.spaced_image hnumbered htree hnested hparted

theorem nested_of_parse (h : parse source customTags = .ok set) (hd : d ∈ set.documents)
    (hroot : d.root = some root) : root.Nested := by
  rcases exists_parted_of_parse h hd hroot with ⟨a, n, htree, -, hnested, -⟩
  exact (Tree.nested_image hnested root htree).1

end

end DocumentSet
end YamlServer
