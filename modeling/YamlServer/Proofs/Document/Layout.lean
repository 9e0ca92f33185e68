import YamlServer.Proofs.Document.Reading
import YamlServer.Proofs.Tree.Nesting
import YamlServer.Proofs.Yaml.NodeOrder

/-!
# How a document lies in its text

The tree of a document keeps the spans of the nodes it was composed from. So what holds of the
composed nodes holds of the tree: ranges lie inside ranges, and siblings follow each other.

* `DocumentSet.laidOut_of_parse`: every document of a text is laid out.
-/

namespace YamlServer

open Yaml

namespace Tree

/-! ## Trees of nested nodes -/

/-- What the tree of a node keeps of it. -/
def Keeps (a : Attached) (n : Node) : Prop :=
  ∀ t, image a n = .ok t → t.Nested ∧ t.extent = n.extent

theorem nested_imageItems {a : Attached} {items : List Node} {ts : List Tree}
    (hkeeps : ∀ n ∈ items, Keeps a n) (h : imageItems a items = .ok ts) :
    ts.map extent = items.map Node.extent ∧ ∀ t ∈ ts, t.Nested := by
  induction items generalizing ts with
  | nil =>
    cases h
    refine ⟨rfl, ?_⟩
    intro t ht
    cases ht
  | cons n rest ih =>
    rcases Outcome.bind_eq_ok.1 h with ⟨t, ht, hrest⟩
    rcases Outcome.bind_eq_ok.1 hrest with ⟨more, hmore, hlast⟩
    cases hlast
    rcases hkeeps n List.mem_cons_self t ht with ⟨hnested, hextent⟩
    rcases ih (fun m hm => hkeeps m (List.mem_cons_of_mem _ hm)) hmore with ⟨hmap, hall⟩
    refine ⟨by rw [List.map_cons, List.map_cons, hextent, hmap], ?_⟩
    intro u hu
    rcases List.mem_cons.1 hu with rfl | hu
    · exact hnested
    · exact hall u hu

/-- Entries become pairs whose sides keep their extents one by one. -/
theorem nested_imageEntries {a : Attached} {entries : List (Node × Node)} {ts : List Tree}
    (hkeeps : ∀ n ∈ Node.sides entries, Keeps a n) (h : imageEntries a entries = .ok ts) :
    ∃ pairs : List (Tree × Tree), ts = pairs.map entry ∧
      (sides pairs).map extent = (Node.sides entries).map Node.extent ∧
      ∀ t ∈ sides pairs, t.Nested := by
  induction entries generalizing ts with
  | nil =>
    cases h
    refine ⟨[], rfl, rfl, ?_⟩
    intro t ht
    cases ht
  | cons e rest ih =>
    rcases e with ⟨k, v⟩
    rcases Outcome.bind_eq_ok.1 h with ⟨key, hkey, hrest⟩
    rcases Outcome.bind_eq_ok.1 hrest with ⟨value, hvalue, hrest'⟩
    rcases Outcome.bind_eq_ok.1 hrest' with ⟨more, hmore, hlast⟩
    cases hlast
    -- Keys and values stand in one row, on both sides of the conversion.
    have hsides : Node.sides ((k, v) :: rest) = k :: v :: Node.sides rest := rfl
    rw [hsides] at hkeeps ⊢
    rcases hkeeps k List.mem_cons_self key hkey with ⟨hkeyNested, hkeyExtent⟩
    rcases hkeeps v (List.mem_cons_of_mem _ List.mem_cons_self) value hvalue with
      ⟨hvalueNested, hvalueExtent⟩
    have hlater : ∀ n ∈ Node.sides rest, Keeps a n := fun n hn =>
      hkeeps n (List.mem_cons_of_mem _ (List.mem_cons_of_mem _ hn))
    rcases ih hlater hmore with ⟨pairs, hpairs, hmap, hall⟩
    refine ⟨(key, value) :: pairs, by rw [hpairs]; rfl, ?_, ?_⟩
    · calc
        (sides ((key, value) :: pairs)).map extent
            = key.extent :: value.extent :: (sides pairs).map extent := rfl
        _ = k.extent :: v.extent :: (Node.sides rest).map Node.extent := by
              rw [hkeyExtent, hvalueExtent, hmap]
    · intro t ht
      rcases List.mem_cons.1 ht with rfl | ht
      · exact hkeyNested
      · rcases List.mem_cons.1 ht with rfl | ht
        · exact hvalueNested
        · exact hall t ht

/-- The tree of a nested node is nested, and has the node's extent. -/
theorem nested_image {a : Attached} {n : Node} (h : n.Nested) : Keeps a n := by
  -- Only the value of a scalar can fail; the spans are copied as they are.
  induction h with
  | scalar id span tag content style hspan =>
    intro t ht
    rcases Outcome.bind_eq_ok.1 ht with ⟨value, -, hlast⟩
    cases hlast
    exact ⟨Nested.scalar _ _ _ _ _ _ rfl rfl hspan, rfl⟩
  | «alias» id span anchor target hspan =>
    intro t ht
    cases ht
    exact ⟨Nested.alias _ _ _ _ _ rfl rfl hspan, rfl⟩
  | sequence id span tag items hitems _ ih =>
    intro t ht
    rcases Outcome.bind_eq_ok.1 ht with ⟨ts, hts, hlast⟩
    cases hlast
    rcases nested_imageItems ih hts with ⟨hmap, hall⟩
    exact ⟨Nested.sequence _ _ _ _ rfl rfl (hitems.of_map_eq hmap) hall, rfl⟩
  | mapping id span tag entries hentries _ ih =>
    intro t ht
    rcases Outcome.bind_eq_ok.1 ht with ⟨ts, hts, hlast⟩
    cases hlast
    rcases nested_imageEntries ih hts with ⟨pairs, rfl, hmap, hall⟩
    exact ⟨Nested.map _ _ _ _ rfl rfl (hentries.of_map_eq hmap) hall, rfl⟩

/-! ## Siblings -/

/-- A node that stops before another one starts. -/
def Before (t u : Tree) : Prop :=
  ∃ e s, t.stop? = some e ∧ u.start? = some s ∧ e ≤ s

/-- A pair whose value stops before the key of another pair starts. -/
def EntryBefore (p q : Tree) : Prop :=
  ∃ key value key' value', p = .pair (some key) (some value) ∧ q = .pair (some key') (some value') ∧
    value.Before key'

theorem Nested.before {t u : Tree} (ht : t.Nested) (hu : u.Nested)
    (h : t.extent.2 ≤ u.extent.1) : t.Before u :=
  ⟨t.extent.2, u.extent.1, ht.range.2.1, hu.range.1, h⟩

theorem Nested.pairwise_items {info : Info} {items : List Tree}
    (h : (Tree.sequence info items).Nested) : items.Pairwise Before := by
  cases h with
  | sequence _ _ s e hs he hitems hnested =>
    refine List.Pairwise.imp_of_mem ?_ hitems.ordered
    intro t u ht hu htu
    exact (hnested t ht).before (hnested u hu) htu

theorem Nested.pairwise_entries {info : Info} {entries : List Tree}
    (h : (Tree.map info entries).Nested) : entries.Pairwise EntryBefore := by
  cases h with
  | map _ pairs s e hs he hpairs hnested =>
    refine List.pairwise_map.2 (List.Pairwise.imp_of_mem ?_ (pairwise_value_key hpairs))
    intro p q hp hq hpq
    have hvalue := hnested p.2 (mem_sides hp).2
    have hkey := hnested q.1 (mem_sides hq).1
    exact ⟨p.1, p.2, q.1, q.2, rfl, rfl, hvalue.before hkey hpq⟩

end Tree

/-! ## Documents -/

/-- How a document lies in a text of `size` characters. -/
structure Document.LaidOut (size : Nat) (d : Document) : Prop where
  /-- A node other than a pair has a range between the document's start and the end of the text. -/
  ranged : ∀ v ∈ d.visits, v.node.isPair = false →
    ∃ s e, v.node.start? = some s ∧ v.node.stop? = some e ∧ d.start ≤ s ∧ s ≤ e ∧ e ≤ size
  /-- A range lies inside the nearest range above it. -/
  inside : ∀ v ∈ d.visits, ∀ u, Tree.rangedAbove? d.visits v.id = some u →
    ∀ r r', v.node.range? = some r → u.range? = some r' → r'.1 ≤ r.1 ∧ r.2 ≤ r'.2
  /-- A pair has a key and a value, and the key stops before the value starts. -/
  paired : ∀ v ∈ d.visits, v.node.isPair = true →
    ∃ key value, v.node = .pair (some key) (some value) ∧ key.Before value
  /-- The value of a pair stops before the keys of the later pairs start. -/
  entries : ∀ v ∈ d.visits, ∀ info entries, v.node = .map info entries →
    entries.Pairwise Tree.EntryBefore
  /-- An item of a sequence stops before the later ones start. -/
  items : ∀ v ∈ d.visits, ∀ info items, v.node = .sequence info items → items.Pairwise Tree.Before
  /-- Along the walk the starts never decrease. -/
  sorted : (d.visits.filterMap (·.node.start?)).Pairwise (· ≤ ·)

namespace Document

theorem visits_of_root {d : Document} {root : Tree} (hroot : d.root = some root) :
    d.visits = root.visits := by
  rw [visits, hroot]
  rfl

/-- A document without a root has no nodes to lay out. -/
theorem laidOut_rootless {size : Nat} {d : Document} (h : d.root = none) : d.LaidOut size := by
  have hvisits : d.visits = [] := by rw [visits, h]; rfl
  constructor
  all_goals simp [hvisits]

theorem laidOut_of_nested {size : Nat} {d : Document} {root : Tree} (hroot : d.root = some root)
    (hnested : root.Nested) (hstart : d.start ≤ root.extent.1) (hsize : root.extent.2 ≤ size) :
    d.LaidOut size := by
  have hvisits := visits_of_root hroot
  have hsettled : ∀ v ∈ d.visits,
      Tree.Settled root (Tree.rangedAbove? d.visits v.id) v.node := by
    rw [hvisits]
    intro v hv
    rw [Tree.visits_eq_places] at hv
    rcases List.mem_map.1 hv with ⟨p, hp, rfl⟩
    exact hnested.settled hp
  -- A node that is no pair is nested itself.
  have hranged : ∀ v ∈ d.visits, v.node.isPair = false → v.node.Nested ∧ v.node.Inside root ∧
      ∀ u, Tree.rangedAbove? d.visits v.id = some u → v.node.Inside u := by
    intro v hv hpair
    have hv' := hsettled v hv
    generalize v.node = t at hv' hpair
    cases hv' with
    | ranged t ht hinside haround => exact ⟨ht, hinside, haround⟩
    | pair key value => cases hpair
  refine ⟨?_, ?_, ?_, ?_, ?_, ?_⟩
  · intro v hv hpair
    rcases hranged v hv hpair with ⟨ht, hinside, -⟩
    rcases ht.range with ⟨hs, he, hle⟩
    exact ⟨_, _, hs, he, Nat.le_trans hstart hinside.1, hle, Nat.le_trans hinside.2 hsize⟩
  -- A node with a range is no pair, so it is settled as a nested one.
  · intro v hv u hu r r' hr hr'
    have hpair : v.node.isPair = false := by
      cases hnode : v.node with
      | pair key value =>
        rw [hnode] at hr
        cases hr
      | _ => rfl
    rw [← Tree.extent_of_range? hr, ← Tree.extent_of_range? hr']
    exact (hranged v hv hpair).2.2 u hu
  · intro v hv hpair
    have hv' := hsettled v hv
    generalize v.node = t at hv' hpair
    cases hv' with
    -- A nested node is no pair.
    | ranged t ht _ _ => cases ht <;> cases hpair
    | pair key value hkey hvalue hle => exact ⟨key, value, rfl, hkey.before hvalue hle⟩
  · intro v hv info entries hnode
    have hmap := (hranged v hv (by rw [hnode]; rfl)).1
    rw [hnode] at hmap
    exact hmap.pairwise_entries
  · intro v hv info items hnode
    have hsequence := (hranged v hv (by rw [hnode]; rfl)).1
    rw [hnode] at hsequence
    exact hsequence.pairwise_items
  · have hstarts : d.visits.filterMap (·.node.start?) = root.starts := by
      rw [hvisits, Tree.starts, Tree.walk, List.filterMap_map]
      rfl
    rw [hstarts]
    exact hnested.sorted_starts.1

theorem laidOut_ofComposed {size : Nat} {customTags : List String} {c : Composed}
    {comments : List Comment} {d : Document} (hresolved : c.Resolved) (hplaced : c.Placed size)
    (h : ofComposed customTags c comments = .ok d) : d.LaidOut size := by
  rcases (root_ofComposed hresolved h).2 with ⟨-, hroot⟩ | ⟨n, root, hn, htree, hroot⟩
  · exact laidOut_rootless hroot
  · rcases hplaced n hn with ⟨hnested, hstart, hstop⟩
    rcases Tree.nested_image hnested root htree with ⟨htreeNested, hextent⟩
    refine laidOut_of_nested hroot htreeNested ?_ ?_
    · rw [hextent, start, (root_ofComposed hresolved h).1]
      exact hstart
    · rw [hextent]
      exact hstop

end Document

/-! ## Texts -/

namespace DocumentSet

/-- The composed documents of a text are placed in it. -/
theorem placed_ofChars (cs : List Char) :
    ∀ c ∈ Composed.ofEvents cs.length (EventStream.ofTokens (TokenStream.ofChars cs)),
      c.Placed cs.length :=
  Composed.placed_ofEvents (EventStream.inOrder_ofTokens (TokenStream.inOrder_ofChars cs))

/-- Every document of a text is laid out in it. -/
theorem laidOut_of_parse {source : String} {customTags : List String} {set : DocumentSet}
    (h : parse source customTags = .ok set) : ∀ d ∈ set.documents, d.LaidOut source.length := by
  intro d hd
  rcases exists_share h hd with ⟨share, hshare, hresolved, hof⟩
  have hplaced := placed_ofChars source.toList share.1 (List.of_mem_zip hshare).1
  rw [String.length_toList] at hplaced
  exact Document.laidOut_ofComposed hresolved hplaced hof

/-- A map of an anchored sequence without indentation, a flow mapping of one pair, an alias and an
empty value, and a second document. -/
def nestedText : String :=
  "a: &x\n- [b: c]\n- *x\nd:\n--- e\n"

theorem laidOut_of_parse_nestedText :
    ∃ set, parse nestedText [] = .ok set ∧ set.documents.length = 2 ∧
      ∀ d ∈ set.documents, d.LaidOut nestedText.length := by
  have hread : (parse nestedText []).toOption.any (·.documents.length == 2) = true := by
    decide +kernel
  cases hparse : parse nestedText [] with
  | error failure =>
      rw [hparse] at hread
      cases hread
  | ok set =>
      rw [hparse] at hread
      exact ⟨set, rfl, beq_iff_eq.1 hread, laidOut_of_parse hparse⟩

end DocumentSet
end YamlServer
