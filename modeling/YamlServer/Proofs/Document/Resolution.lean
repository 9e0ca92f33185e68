import YamlServer.Proofs.Document.Comments
import YamlServer.Proofs.Document.Containment
import YamlServer.Proofs.Document.Nearest
import YamlServer.Proofs.Document.Spacing

/-!
# Every position has a node

In a document of a text that has a root, every offset belongs to a node: in the header, between
documents, on blank lines, and outside of the text as well. A document that is laid out has what the
three searches ask for: its ranges nest, its starts never decrease along the walk and none is before
its own, and only pairs have no range, so that the loop that goes up does not end at a node without
one.

* `DocumentSet.resolve_of_parse`: the node at every offset of every document of a text.
-/

namespace YamlServer

open Text

namespace Tree

/-- What is found on the way up is a node that satisfies the condition. -/
theorem exists_place_of_firstUp? {root : Tree} {ends : Tree → Bool} {p : Place} {id : Nat}
    (hp : p ∈ root.places) (h : firstUp? root.visits ends p.id = some id) :
    ∃ q ∈ root.places, q.id = id ∧ ends q.node = true := by
  have hends := List.find?_some h
  have hmem := List.mem_of_find?_eq_some h
  obtain ⟨q, hq, rfl⟩ : ∃ q ∈ root.places, q.id = id := by
    rw [ancestors_place hp] at hmem
    rcases List.mem_cons.1 hmem with rfl | habove
    · exact ⟨p, hp, rfl⟩
    · rcases List.mem_map.1 habove with ⟨l, hl, rfl⟩
      rcases place_of_mem_above hp hl with ⟨q, hq, hid, -⟩
      exact ⟨q, hq, hid⟩
  rw [nodeAt?_place hq] at hends
  exact ⟨q, hq, rfl, hends⟩

theorem isSome_range?_of_contains {t : Tree} {offset : Int} (h : t.contains offset = true) :
    t.range?.isSome = true := by
  cases hrange : t.range? with
  | none =>
    rw [contains_of_range?_none hrange] at h
    cases h
  | some r => rfl

end Tree

namespace Document

open YamlServer.Tree

variable {d : Document} {root : Tree} {size : Nat}

/-! ## Documents that are laid out -/

namespace LaidOut

theorem rangesNest (h : d.LaidOut size) : d.RangesNest :=
  fun v hv u hu r hr r' hr' => h.inside v hv u hu r r' hr hr'

theorem isBare (h : d.LaidOut size) {v : Visit} (hv : v ∈ d.visits) : v.node.isBare = false := by
  cases hpair : v.node.isPair with
  | true => rw [Tree.isBare, hpair, Bool.not_true, Bool.and_false]
  | false =>
    rcases h.ranged v hv hpair with ⟨s, e, hs, he, -⟩
    rw [Tree.isBare, range?, hs, he]
    rfl

theorem start_le (h : d.LaidOut size) {v : Visit} (hv : v ∈ d.visits) {r : Nat × Nat}
    (hr : v.node.range? = some r) : d.start ≤ r.1 := by
  rcases h.ranged v hv (isPair_of_range? hr) with ⟨s, e, hs, -, hle, -⟩
  rw [start?_of_range? hr] at hs
  cases hs
  exact hle

/-- A node without a range is a pair and has no start either, so the starts are those of the
ranges. -/
theorem sorted_ranges (h : d.LaidOut size) :
    (d.visits.filterMap (·.node.range?)).Pairwise fun r r' => r.1 ≤ r'.1 := by
  have hstarts : d.visits.filterMap (·.node.start?) =
      (d.visits.filterMap (·.node.range?)).map (·.1) := by
    rw [List.map_filterMap]
    refine List.filterMap_congr ?_
    intro v hv
    cases hrange : v.node.range? with
    | some r => rw [start?_of_range? hrange]; rfl
    | none =>
      cases hnode : v.node with
      | pair key value => rfl
      | _ =>
        have hbare := h.isBare hv
        rw [Tree.isBare, hrange, hnode] at hbare
        cases hbare
  have hsorted := h.sorted
  rw [hstarts] at hsorted
  exact List.pairwise_map.1 hsorted

/-- The nearest node is a node of the document with a range. -/
theorem exists_closest (h : d.LaidOut size) (hroot : d.root = some root)
    (hranged : root.range?.isSome = true) (cs : List Char) (offset : Int) :
    ∃ v ∈ d.visits, d.closest? (Lines.ofChars cs) offset = some v.id ∧
      v.node.range?.isSome = true := by
  have hvisits := visits_of_root hroot
  have hstart : ∀ v ∈ d.visits, ∀ r ∈ v.node.range?, d.start ≤ r.1 := fun v hv r hr =>
    h.start_le hv hr
  rcases exists_nearest hroot hranged h.sorted_ranges hstart offset with ⟨b, hb, hscan⟩
  have hclosest := closest?_of_scan hroot hb.mem hscan cs
  split at hclosest
  · exact ⟨b, hb.mem, hclosest, hb.isSome_range?⟩
  · have hmem := hb.mem
    rw [hvisits, visits_eq_places] at hmem
    rcases List.mem_map.1 hmem with ⟨p, hp, rfl⟩
    rw [Place.visit] at hclosest
    cases hup : firstUp? d.visits (endsLift cs (lineBefore cs offset.toNat).length) p.id with
    | none =>
      rw [hup] at hclosest
      refine ⟨⟨0, none, root⟩, ?_, hclosest, hranged⟩
      rw [hvisits]
      exact visit_mem (root_place root)
    | some id =>
      rw [hup] at hclosest
      rw [hvisits] at hup
      rcases exists_place_of_firstUp? hp hup with ⟨q, hq, rfl, hends⟩
      have hin : q.visit ∈ d.visits := by
        rw [hvisits]
        exact visit_mem hq
      refine ⟨q.visit, hin, hclosest, ?_⟩
      -- The loop ends at an aligned node, as there are no bare ones.
      have hbare : q.node.isBare = false := h.isBare hin
      rw [endsLift, hbare, Bool.or_false, isAligned] at hends
      rcases (Option.any_eq_true_iff_get _ _).1 hends with ⟨hsome, -⟩
      exact hsome

end LaidOut

/-- The node around an offset is a node of the document that holds it. -/
theorem exists_containing (h : d.RangesNest) {offset : Int} {id : Nat}
    (hid : d.containing? offset = some id) :
    ∃ v ∈ d.visits, v.id = id ∧ v.node.contains offset = true := by
  rw [containing?_eq h, lastHolding?] at hid
  rcases Option.map_eq_some_iff.1 hid with ⟨v, hlast, rfl⟩
  rcases List.mem_filter.1 (List.mem_of_getLast? hlast) with ⟨hv, hheld⟩
  exact ⟨v, hv, rfl, hheld⟩

/-- The node at an offset of a document that is laid out. -/
theorem LaidOut.exists_resolve (h : d.LaidOut size) (hroot : d.root = some root)
    (hranged : root.range?.isSome = true) (cs : List Char) (offset : Int) :
    ∃ v ∈ d.visits, ∃ fallback, d.resolve (Lines.ofChars cs) offset = (some v.id, fallback) ∧
      v.node.range?.isSome = true ∧ (fallback = false → v.node.contains offset = true) ∧
      (fallback = true ↔ allBlank (lineAround cs offset.toNat) = true ∨
        ∀ u ∈ d.visits, u.node.contains offset = false) := by
  rcases h.exists_closest hroot hranged cs offset with ⟨near, hnear, hclosest, hnearRanged⟩
  rw [resolve, hclosest, Lines.allBlank_content]
  cases hblank : allBlank (lineAround cs offset.toNat) with
  | true => exact ⟨near, hnear, true, rfl, hnearRanged, by simp, by simp⟩
  | false =>
    cases hfound : d.containing? offset with
    | none =>
      have hmiss := (containing?_eq_none_iff h.rangesNest offset).1 hfound
      exact ⟨near, hnear, true, rfl, hnearRanged, by simp, by simpa using hmiss⟩
    | some id =>
      rcases exists_containing h.rangesNest hfound with ⟨v, hv, rfl, hheld⟩
      refine ⟨v, hv, false, rfl, isSome_range?_of_contains hheld, fun _ => hheld, ?_⟩
      simp only [Bool.false_eq_true, false_or, false_iff]
      intro hmiss
      rw [hmiss v hv] at hheld
      cases hheld

end Document

namespace DocumentSet

/-- A document of a text is laid out, and its root is no pair. -/
theorem exists_range?_of_parse {source : String} {customTags : List String} {set : DocumentSet}
    {d : Document} {root : Tree} (h : parse source customTags = .ok set) (hd : d ∈ set.documents)
    (hroot : d.root = some root) : d.LaidOut source.length ∧ root.range?.isSome = true := by
  rcases exists_share h hd with ⟨share, hshare, hresolved, hof⟩
  have hplaced := placed_ofChars source.toList share.1 (List.of_mem_zip hshare).1
  rw [String.length_toList] at hplaced
  refine ⟨Document.laidOut_ofComposed hresolved hplaced hof, ?_⟩
  rw [(nested_of_parse h hd hroot).range?_eq]
  rfl

/-- In a document with a root, every offset has a node of the tree with a range. Unless it is only
the nearest one, it holds the offset. It is only the nearest one on blank lines and where no node
holds the offset. The search ends, as its loop that goes up does, from every node and in every
column. -/
theorem resolve_of_parse {source : String} {customTags : List String} {set : DocumentSet}
    {d : Document} {root : Tree} (h : parse source customTags = .ok set) (hd : d ∈ set.documents)
    (hroot : d.root = some root) (offset : Int) :
    (∃ v ∈ d.visits, ∃ fallback, d.resolve (Lines.ofText source) offset = (some v.id, fallback) ∧
      v.node.range?.isSome = true ∧ v.node.isPair = false ∧
      (fallback = false → v.node.contains offset = true) ∧
      (fallback = true ↔ allBlank (lineAround source.toList offset.toNat) = true ∨
        ∀ u ∈ d.visits, u.node.contains offset = false)) ∧
    ∀ u ∈ d.visits, ∀ column, d.Lifts source.toList column (some u.id)
      (d.liftFrom (Lines.ofText source) d.visits (Int.ofNat column) (d.visits.length + 2)
        (some u.id)) := by
  rcases exists_range?_of_parse h hd hroot with ⟨hlaid, hranged⟩
  rcases hlaid.exists_resolve hroot hranged source.toList offset with
    ⟨v, hv, fallback, hresolve, hsome, hheld, hflag⟩
  rcases Option.isSome_iff_exists.1 hsome with ⟨r, hr⟩
  refine ⟨⟨v, hv, fallback, hresolve, hsome, Tree.isPair_of_range? hr, hheld, hflag⟩, ?_⟩
  intro u hu column
  exact Document.lifts_liftFrom hroot source.toList column hu

/-- A header with a comment, a block scalar with a blank line in it, and a second document. -/
def scatteredText : String :=
  "# top\n\na:\n  b: |\n    x\n\n    y\n---\nc: 1\n"

/-- Before the text, on the blank line of the header, at the key `b`, on the blank line of the block
scalar, behind it, and behind the text. -/
theorem resolve_of_parse_scatteredText :
    ∃ set d root, parse scatteredText [] = .ok set ∧ d ∈ set.documents ∧ d.root = some root ∧
      [-3, 6, 12, 23, 27, 90].map (d.resolve (Lines.ofText scatteredText)) =
        [(some 2, true), (some 2, true), (some 5, false), (some 0, true), (some 6, false),
          (some 0, true)] ∧
      ∀ offset, ∃ v ∈ d.visits, ∃ fallback,
        d.resolve (Lines.ofText scatteredText) offset = (some v.id, fallback) ∧
          v.node.range?.isSome = true ∧ (fallback = false → v.node.contains offset = true) := by
  have hread : ((parse scatteredText []).toOption.any fun set =>
      set.documents.head?.any fun d => d.root.isSome &&
        [-3, 6, 12, 23, 27, 90].map (d.resolve (Lines.ofText scatteredText)) ==
          [(some 2, true), (some 2, true), (some 5, false), (some 0, true), (some 6, false),
            (some 0, true)]) = true := by
    decide +kernel
  cases hparse : parse scatteredText [] with
  | error failure =>
      rw [hparse] at hread
      cases hread
  | ok set =>
      rw [hparse] at hread
      rcases (Option.any_eq_true _ _).1 hread with ⟨set', hset, hfirst⟩
      cases hset
      rcases (Option.any_eq_true _ _).1 hfirst with ⟨d, hhead, hd⟩
      rw [Bool.and_eq_true, beq_iff_eq] at hd
      rcases Option.isSome_iff_exists.1 hd.1 with ⟨root, hroot⟩
      have hmem := List.mem_of_head? hhead
      refine ⟨set, d, root, rfl, hmem, hroot, hd.2, ?_⟩
      intro offset
      rcases (resolve_of_parse hparse hmem hroot offset).1 with
        ⟨v, hv, fallback, hresolve, hsome, -, hheld, -⟩
      exact ⟨v, hv, fallback, hresolve, hsome, hheld⟩

end DocumentSet
end YamlServer
