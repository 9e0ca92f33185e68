import YamlServer.Proofs.Document.Spacing
import YamlServer.Proofs.Schema.Descent

/-!
# Schemas along a path

The way down to an offset is steered by the offset alone. What the schema decides is how far it
goes, and which of its parts belongs to each node on the way.

* `Schema.partAlong`: the part of a schema at the end of a way.
* `Document.schemasOf_followsPath`: those of a node outside of keys do, in a spaced tree.
-/

namespace YamlServer
namespace Schema

open Outcome YamlServer.Tree

/-! ## Parts of a schema along a way -/

/-- The part of a schema for what hangs in a collection. Only an object has parts. -/
def partOf? : Value → Slot → Option Value
  | .map members, .member key =>
    (key.bind (Value.get? (propertiesOf members))).orElse
      fun _ => Value.get? members "additionalProperties"
  | .map members, .item => Value.get? members "items"
  | _, _ => none

def partAlong (schema : Value) : List Content → Option Value
  | [] => some schema
  | c :: cs => (partOf? schema c.slot).bind (partAlong · cs)

section

variable {offset : Int} {id : Nat} {members : List (Value × Value)}

def stepTo (offset : Int) (members : List (Value × Value)) (c : Content) :
    Option (Nat × Tree × Value) :=
  if c.node.contains offset then stepInto c.id c.node (partOf? (.map members) c.slot) else none

@[simp]
theorem stepInto_eq (i : Nat) (t : Tree) (part : Option Value) :
    stepInto i t part = some (i, t, part.getD .null) := by
  cases part with
  | none => rfl
  | some part => rfl

theorem findSome?_stepTo (cs : List Content) :
    cs.findSome? (stepTo offset members) = (cs.find? (·.node.contains offset)).map fun c =>
      (c.id, c.node, (partOf? (.map members) c.slot).getD .null) := by
  induction cs with
  | nil => rfl
  | cons c cs ih =>
    rw [List.findSome?_cons, List.find?_cons, stepTo, stepInto_eq, ih]
    cases c.node.contains offset with
    | true => rfl
    | false => rfl

theorem step?_entries (info : Info) (entries : List Tree) :
    step? offset id (.map info entries) members =
      (numberFrom (id + 1) entries).findSome? fun e =>
        (contentOf? e.1 e.2).bind (stepTo offset members) := by
  refine congrArg (List.findSome? · (numberFrom (id + 1) entries)) (funext fun e => ?_)
  rcases e with ⟨i, e⟩
  cases e with
  | pair key value =>
    cases value with
    | none => rfl
    | some value => rfl
  | _ => rfl

/-- A step goes to the first content that holds the offset, with its part of the schema. -/
theorem step?_eq (t : Tree) :
    step? offset id t members = ((t.contents id).find? (·.node.contains offset)).map fun c =>
      (c.id, c.node, (partOf? (.map members) c.slot).getD .null) := by
  rw [← findSome?_stepTo]
  cases t with
  | map info entries =>
    rw [step?_entries, contents, ← List.head?_filterMap, ← List.head?_filterMap,
      List.filterMap_filterMap]
  | sequence info items =>
    rw [contents, List.findSome?_map]
    refine congrArg (List.findSome? · (numberFrom (id + 1) items)) (funext fun e => ?_)
    rw [Function.comp_apply, stepTo, stepInto_eq]
    rfl
  | _ => rfl

end

/-- The matches on a way from the node numbered `id`: they are on its first nodes, each with the
part of the schema there, and end only where that part is absent or no object. -/
structure Follows (schema : Value) (id : Nat) (cs : List Content) (ms : List Match) : Prop where
  nodes : ms.map (·.node) <+: id :: cs.map (·.id)
  parts : ∀ k m, ms[k]? = some m →
    partAlong schema (cs.take k) = some m.schema ∧ ∃ members, m.schema = .map members
  ends : ms.length ≤ cs.length → ∀ members,
    partAlong schema (cs.take ms.length) ≠ some (.map members)

namespace Follows

variable {schema : Value} {id : Nat} {cs : List Content} {ms : List Match}
variable {members : List (Value × Value)}

/-- No match at all, because the schema is no object. -/
theorem nil (h : ∀ members, schema ≠ .map members) : Follows schema id cs [] := by
  refine ⟨List.nil_prefix, ?_, ?_⟩
  · intro k m hk
    simp at hk
  · intro _ members hpart
    exact h members (Option.some.inj hpart)

theorem single (valid : Bool) :
    Follows (.map members) id [] [⟨id, .map members, valid⟩] := by
  refine ⟨List.prefix_refl _, ?_, ?_⟩
  · intro k m hk
    cases k with
    | zero =>
      cases hk
      exact ⟨rfl, members, rfl⟩
    | succ k => cases hk
  · intro hlength
    cases hlength

/-- One match, and the part for what comes next is absent. -/
theorem cut {c : Content} (valid : Bool) (h : partOf? (.map members) c.slot = none) :
    Follows (.map members) id (c :: cs) [⟨id, .map members, valid⟩] := by
  refine ⟨⟨_, rfl⟩, ?_, ?_⟩
  · intro k m hk
    cases k with
    | zero =>
      cases hk
      exact ⟨rfl, members, rfl⟩
    | succ k => cases hk
  · intro _ ms hpart
    rw [List.length_singleton, List.take_succ_cons, partAlong, h] at hpart
    cases hpart

/-- A match in front of those that follow the rest of the way. -/
theorem cons {c : Content} {part : Value} (valid : Bool)
    (hpart : partOf? (.map members) c.slot = some part) (h : Follows part c.id cs ms) :
    Follows (.map members) id (c :: cs) (⟨id, .map members, valid⟩ :: ms) := by
  have hstep : ∀ k, partAlong (.map members) ((c :: cs).take (k + 1)) =
      partAlong part (cs.take k) := by
    intro k
    rw [List.take_succ_cons, partAlong, hpart, Option.bind_some]
  refine ⟨?_, ?_, ?_⟩
  · rw [List.map_cons, List.map_cons]
    exact (List.prefix_cons_inj id).2 h.nodes
  · intro k m hk
    cases k with
    | zero =>
      cases hk
      exact ⟨rfl, members, rfl⟩
    | succ k =>
      rw [hstep]
      exact h.parts k m hk
  · intro hlength ms' hat
    rw [List.length_cons, hstep] at hat
    exact h.ends (Nat.le_of_succ_le_succ hlength) ms' hat

/-- Where all parts along the way are objects, every node on it is matched. -/
theorem nodes_eq (h : Follows schema id cs ms)
    (hobjects : ∀ k ≤ cs.length, ∃ members, partAlong schema (cs.take k) = some (.map members)) :
    ms.map (·.node) = id :: cs.map (·.id) := by
  refine h.nodes.eq_of_length_le ?_
  rw [List.length_cons, List.length_map, List.length_map]
  by_contra hshort
  have hle : ms.length ≤ cs.length := by omega
  obtain ⟨members, hmembers⟩ := hobjects ms.length hle
  exact h.ends hle members hmembers

end Follows

section

variable {isValid : Value → Value → Except Fault Bool} {visits : List Visit} {offset : Int}
variable {fuel id : Nat} {t : Tree} {cs : List Content} {schema : Value} {ms : List Match}

theorem follows_of_not_map (hschema : ∀ members, schema ≠ .map members)
    (h : trailFrom isValid visits offset fuel id t schema = .ok ms) : Follows schema id cs ms := by
  rw [trailFrom_of_not_map hschema] at h
  cases h
  exact .nil hschema

/-- The matches from a node that holds the offset follow the way that the offset leads. -/
theorem follows_trailFrom (hleads : Leads offset id t cs) (hheld : t.contains offset = true)
    (hfuel : cs.length < fuel) (h : trailFrom isValid visits offset fuel id t schema = .ok ms) :
    Follows schema id cs ms := by
  -- On the way: the offset alone decides it, whatever part of the schema comes along.
  induction hleads generalizing fuel schema ms with
  | @stop id t hfind =>
    by_cases hmap : ∃ members, schema = .map members
    · rcases hmap with ⟨members, rfl⟩
      obtain ⟨fuel, rfl⟩ : ∃ n, fuel = n + 1 := ⟨fuel - 1, by omega⟩
      rcases trailFrom_eq_ok hheld h with ⟨valid, rest, rfl, -, hnone, -⟩
      have hstep : step? offset id t members = none := by
        rw [step?_eq, hfind]
        rfl
      rw [hnone hstep]
      exact .single valid
    · exact follows_of_not_map (fun members heq => hmap ⟨members, heq⟩) h
  | @step id t c cs hfind _ ih =>
    by_cases hmap : ∃ members, schema = .map members
    · rcases hmap with ⟨members, rfl⟩
      obtain ⟨fuel, rfl⟩ : ∃ n, fuel = n + 1 := ⟨fuel - 1, by omega⟩
      rcases trailFrom_eq_ok hheld h with ⟨valid, rest, rfl, -, -, hnext⟩
      have hstep : step? offset id t members =
          some (c.id, c.node, (partOf? (.map members) c.slot).getD .null) := by
        rw [step?_eq, hfind]
        rfl
      have htrail := hnext _ _ _ hstep
      have hchild : c.node.contains offset = true := by simpa using List.find?_some hfind
      have hlength : cs.length < fuel := Nat.lt_of_succ_lt_succ hfuel
      cases hpart : partOf? (.map members) c.slot with
      | some part =>
        rw [hpart, Option.getD_some] at htrail
        exact .cons valid hpart (ih hchild hlength htrail)
      | none =>
        -- An absent part goes on as null, which is no object.
        rw [hpart, Option.getD_none] at htrail
        have hnull : ∀ members, Value.null ≠ .map members := by simp
        rw [trailFrom_of_not_map hnull] at htrail
        cases htrail
        exact .cut valid hpart
    · exact follows_of_not_map (fun members heq => hmap ⟨members, heq⟩) h

end

/-! ## The path of a node -/

def slotOf? (visits : List Visit) (id : Nat) : Option Slot :=
  ((parentOf? visits id).bind (nodeAt? visits)).map slotBelow

/-- The part of a schema for the last of these nodes, each in the one before it. -/
def subschema? (visits : List Visit) (schema : Value) : List Nat → Option Value
  | [] => some schema
  | i :: rest =>
    ((slotOf? visits i).bind (partOf? schema)).bind (subschema? visits · rest)

/-- The matches on the path to the node numbered `id`. They are on the first nodes of the path that
have a range, each with its part of the schema, and end before the node only where the next part is
absent or no object. -/
structure FollowsPath (visits : List Visit) (schema : Value) (id : Nat) (ms : List Match) :
    Prop where
  nodes : ms.map (·.node) <+: rangedPath visits id
  parts : ∀ k m, ms[k]? = some m →
    subschema? visits schema ((rangedPath visits id).tail.take k) = some m.schema ∧
      ∃ members, m.schema = .map members
  ends : ms.length < (rangedPath visits id).length → ∀ members,
    subschema? visits schema ((rangedPath visits id).tail.take ms.length) ≠ some (.map members)
  /-- With an object for every node of the path, the last match is on the node. -/
  last : (∀ k < (rangedPath visits id).length, ∃ members,
      subschema? visits schema ((rangedPath visits id).tail.take k) = some (.map members)) →
    ∃ m, ms.getLast? = some m ∧ m.node = id

theorem slotOf?_content {root : Tree} {p : Place} (hp : p ∈ root.places) {c : Content}
    (hc : c ∈ p.node.contents p.id) : slotOf? root.visits c.id = some c.slot := by
  obtain ⟨l, rest, hplace, hl, hslot, -⟩ := place_content hp hc
  have hparent : parentOf? root.visits c.id = some l.id := parentOf?_place hplace
  have hnode : nodeAt? root.visits l.id = some l.node := nodeAt?_place hl
  rw [slotOf?, hparent, Option.bind_some, hnode, hslot]
  rfl

/-- Along a path the numbers of the nodes give the same parts as the contents. -/
theorem subschema?_path {root : Tree} {id i : Nat} {t u : Tree} {cs : List Content}
    (hpath : Tree.Path id t cs i u) {above : List Link} (hp : ⟨id, above, t⟩ ∈ root.places)
    (schema : Value) (k : Nat) :
    subschema? root.visits schema ((cs.map (·.id)).take k) = partAlong schema (cs.take k) := by
  induction hpath generalizing above schema k with
  | here id t => rw [List.map_nil, List.take_nil, List.take_nil]; rfl
  | @down id i t u c cs hc _ ih =>
    cases k with
    | zero => rfl
    | succ k =>
      obtain ⟨l, rest, hplace, -⟩ := place_content hp hc
      rw [List.map_cons, List.take_succ_cons, List.take_succ_cons, subschema?, partAlong,
        slotOf?_content hp hc, Option.bind_some]
      cases partOf? schema c.slot with
      | none => rfl
      | some part => exact ih hplace part k

theorem getLast?_path {id i : Nat} {t u : Tree} {cs : List Content} (h : Tree.Path id t cs i u) :
    (id :: cs.map (·.id)).getLast? = some i := by
  induction h with
  | here id t => rfl
  | down hc _ ih => rw [List.map_cons, List.getLast?_cons_cons, ih]

/-- What follows the way to a node follows its path. -/
theorem Follows.followsPath {root : Tree} {schema : Value} {i : Nat} {u : Tree}
    {cs : List Content} {ms : List Match} (h : Follows schema 0 cs ms)
    (hpath : Tree.Path 0 root cs i u) (hids : rangedPath root.visits i = 0 :: cs.map (·.id)) :
    FollowsPath root.visits schema i ms := by
  have hparts : ∀ k, subschema? root.visits schema ((rangedPath root.visits i).tail.take k) =
      partAlong schema (cs.take k) := by
    intro k
    rw [hids, List.tail_cons]
    exact subschema?_path hpath (root_place root) schema k
  have hlength : (rangedPath root.visits i).length = cs.length + 1 := by
    rw [hids, List.length_cons, List.length_map]
  refine ⟨hids ▸ h.nodes, ?_, ?_, ?_⟩
  · intro k m hk
    rw [hparts]
    exact h.parts k m hk
  · intro hshort members
    rw [hparts]
    exact h.ends (by omega) members
  · intro hobjects
    have hall : ms.map (·.node) = 0 :: cs.map (·.id) := by
      refine h.nodes_eq fun k hk => ?_
      obtain ⟨members, hmembers⟩ := hobjects k (by omega)
      exact ⟨members, by rw [← hparts, hmembers]⟩
    have hlast : (ms.map (·.node)).getLast? = some i := by rw [hall, getLast?_path hpath]
    rw [List.getLast?_map] at hlast
    obtain ⟨m, hm, hnode⟩ := Option.map_eq_some_iff.1 hlast
    exact ⟨m, hm, hnode⟩

end Schema

namespace Document

open Schema YamlServer.Tree

/-- The matches at an offset that a tree leads to. -/
theorem follows_matchesAt {d : Document} {root : Tree} (hroot : d.root = some root) {j : Judge}
    {schema : Value} {offset : Int} {ms : List Match} (h : d.matchesAt j schema offset = .ok ms)
    {cs : List Content} (hleads : Leads offset 0 root cs) (hheld : root.contains offset = true) :
    Follows schema 0 cs ms := by
  unfold matchesAt at h
  rw [hroot] at h
  rcases Outcome.bind_eq_ok.1 h with ⟨version, -, htrail⟩
  split at htrail
  · refine follows_trailFrom hleads hheld ?_ htrail
    have hsize : root.visits.length = root.size := by
      rw [visits_eq_places, List.length_map, places, length_placesFrom]
    have hlt := hleads.length_lt
    omega
  · cases htrail

/-- In a tree whose contents stand apart, the matches of a node outside of keys follow its path,
whoever judges them. -/
theorem schemasOf_followsPath {d : Document} {root : Tree} (hroot : d.root = some root)
    (hspaced : root.Spaced) {p : Place} (hp : p ∈ root.places) (hpair : p.node.isPair = false)
    (hkeys : ∀ l ∈ p.above, l.side ≠ .key) {j : Judge} {schema : Value} {ms : List Match}
    (h : d.matchesOf j schema p.node = .ok ms) : FollowsPath root.visits schema p.id ms := by
  obtain ⟨s, e, hrange, hle⟩ := hspaced.exists_range hp hpair
  cases hspaced.reached hp hkeys with
  | entry cs i above info entries hmap =>
      rw [hpair] at hmap
      cases hmap
  | content cs _ hpath hids =>
      have hown : p.node.contains (Int.ofNat s) = true :=
        (contains_iff hrange).2 ⟨Nat.le_refl s, hle⟩
      obtain ⟨hleads, hheld⟩ :=
        hspaced.leads_of_path hpath (root_place root) hown (hspaced.leads_start hp hrange)
      have hstart : p.node.located.start? = some s := by
        cases hnode : p.node with
        | pair key value => rw [hnode] at hpair; cases hpair
        | _ => rw [hnode] at hrange; exact start?_of_range? hrange
      unfold matchesOf at h
      rw [hstart] at h
      rw [List.append_nil] at hleads
      exact (follows_matchesAt hroot h hleads hheld).followsPath hpath hids

/-- The value of a key that is a list: a list of a map of a list, with an empty value at the end. -/
def listKeyText : String :=
  "? [x]\n: - y:\n    - z\n    - w:\n"

def listKeySchema : Value :=
  .map [(.str "additionalProperties", .map [(.str "items", .map [(.str "properties", .map [
    (.str "y", .map [(.str "items", .map [(.str "additionalProperties", .map [])])])])])])]

theorem schemasOf_followsPath_listKeyText :
    ∃ set d root p ms, DocumentSet.parse listKeyText [] = .ok set ∧ d ∈ set.documents ∧
      d.root = some root ∧ root.Spaced ∧ p ∈ root.places ∧ p.node.range? = some (29, 29) ∧
      p.node.isPair = false ∧ (∀ l ∈ p.above, l.side ≠ .key) ∧
      d.schemasOf listKeySchema p.node = .ok ms ∧ ms.map (·.node) = [0, 4, 5, 8, 10, 13] ∧
      FollowsPath root.visits listKeySchema p.id ms := by
  have hread : ∃ set ∈ (DocumentSet.parse listKeyText []).toOption, ∃ d ∈ set.documents,
      ∃ root ∈ d.root, ∃ p ∈ root.places, p.node.range? = some (29, 29) ∧
        p.above.all (·.side != .key) = true ∧
        ∃ ms ∈ (d.schemasOf listKeySchema p.node).toOption,
          ms.map (·.node) = [0, 4, 5, 8, 10, 13] := by
    decide +kernel
  rcases hread with ⟨set, hset, d, hd, root, hroot, p, hp, hrange, hsides, ms, hms, hnodes⟩
  have hparse := Outcome.toOption_eq_some.1 hset
  have hmatches := Outcome.toOption_eq_some.1 hms
  have hspaced := DocumentSet.spaced_of_parse hparse hd hroot
  have hpair : p.node.isPair = false := isPair_of_range? hrange
  have hkeys : ∀ l ∈ p.above, l.side ≠ .key :=
    fun l hl => bne_iff_ne.1 (List.all_eq_true.1 hsides l hl)
  exact ⟨set, d, root, p, ms, hparse, hd, hroot, hspaced, hp, hrange, hpair, hkeys, hmatches,
    hnodes, schemasOf_followsPath hroot hspaced hp hpair hkeys hmatches⟩

end Document
end YamlServer
