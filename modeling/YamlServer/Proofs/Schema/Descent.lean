import Mathlib.Data.List.Chain
import YamlServer.Proofs.Document.Conversion
import YamlServer.Proofs.Document.Layout
import YamlServer.Proofs.Schema.Judgement
import YamlServer.Proofs.Tree.Simple
import YamlServer.Schema.Trail

/-!
# Schemas on the way down

The way from the root of a document to an offset chooses for each node a part of the schema: by the
text of a key, or as the schema of all other members or of all items. A judge that knows these three
keywords asks the same part of the same data when it checks the node above. So a node that fails its
part is the reason for which all nodes above it fail theirs.

References are left out, as is a version of its own inside a schema; both change what a part means
without being on the way.

* `Schema.drafts_lawful`: the judge that knows the versions of JSON Schema is lawful.
-/

namespace YamlServer

open Outcome

namespace Schema

/-! ## Parts of a schema -/

def propertiesOf (members : List (Value × Value)) : List (Value × Value) :=
  match Value.get? members "properties" with
  | some (.map properties) => properties
  | _ => []

def partFor (members : List (Value × Value)) (s : String) : Option Value :=
  (Value.get? (propertiesOf members) s).orElse fun _ => Value.get? members "additionalProperties"

/-- What a schema asks of a member or an item of an instance, by the keywords that the way down
follows. -/
inductive Asks (members : List (Value × Value)) : Value → Value → Value → Prop where
  | property {properties whole : List (Value × Value)} {s : String} {part x : Value}
      (hproperties : Value.get? members "properties" = some (.map properties))
      (hpart : Value.get? properties s = some part) (hvalue : Value.get? whole s = some x) :
      Asks members (.map whole) part x
  | additional {whole : List (Value × Value)} {s : String} {part x : Value}
      (hpart : Value.get? members "additionalProperties" = some part)
      (hunnamed : Value.get? (propertiesOf members) s = none)
      (hvalue : Value.get? whole s = some x) : Asks members (.map whole) part x
  | item {items : List Value} {part x : Value} (hpart : Value.get? members "items" = some part)
      (hvalue : x ∈ items) : Asks members (.list items) part x

/-- The parts of a schema that the way down can come to. -/
inductive Part (schema : Value) : Value → Prop where
  | whole : Part schema schema
  | property {members properties : List (Value × Value)} {s : String} {part : Value}
      (h : Part schema (.map members))
      (hproperties : Value.get? members "properties" = some (.map properties))
      (hpart : Value.get? properties s = some part) : Part schema part
  | additional {members : List (Value × Value)} {part : Value} (h : Part schema (.map members))
      (hpart : Value.get? members "additionalProperties" = some part) : Part schema part
  | items {members : List (Value × Value)} {part : Value} (h : Part schema (.map members))
      (hpart : Value.get? members "items" = some part) : Part schema part

section

variable {members properties : List (Value × Value)} {s : String} {part : Value}

theorem propertiesOf_of_get? (h : Value.get? members "properties" = some (.map properties)) :
    propertiesOf members = properties := by
  rw [propertiesOf, h]

theorem exists_of_get?_propertiesOf (h : Value.get? (propertiesOf members) s = some part) :
    ∃ properties, Value.get? members "properties" = some (.map properties) ∧
      Value.get? properties s = some part := by
  unfold propertiesOf at h
  split at h
  · rename_i properties hproperties
    exact ⟨properties, hproperties, h⟩
  · cases h

/-- The part chosen for a member is one that the schema asks of it. -/
theorem asks_of_partFor {whole : List (Value × Value)} {x : Value}
    (h : partFor members s = some part) (hvalue : Value.get? whole s = some x) :
    Asks members (.map whole) part x := by
  unfold partFor at h
  cases hnamed : Value.get? (propertiesOf members) s with
  | some sub =>
    rw [hnamed] at h
    cases h
    rcases exists_of_get?_propertiesOf hnamed with ⟨properties, hproperties, hpart⟩
    exact .property hproperties hpart hvalue
  | none =>
    rw [hnamed] at h
    exact .additional h hnamed hvalue

end

/-! ## Judges -/

namespace Judge

variable (j : Judge)

/-- What a judge says of the parts of a schema agrees with the keywords that the way down follows:
an instance that satisfies a schema has each member and each item satisfy what is asked of it. -/
structure Keeps (version : j.Version) (schema : Value) : Prop where
  property : ∀ {members properties whole part : List (Value × Value)} {s : String} {x : Value},
    Part schema (.map members) → Value.get? members "properties" = some (.map properties) →
    Value.get? properties s = some (.map part) → Value.get? whole s = some x →
    j.isValid version schema (.map members) (.map whole) = .ok true →
    j.isValid version schema (.map part) x = .ok true
  additional : ∀ {members whole part : List (Value × Value)} {s : String} {x : Value},
    Part schema (.map members) →
    Value.get? members "additionalProperties" = some (.map part) →
    Value.get? (propertiesOf members) s = none → Value.get? whole s = some x →
    j.isValid version schema (.map members) (.map whole) = .ok true →
    j.isValid version schema (.map part) x = .ok true
  items : ∀ {members part : List (Value × Value)} {items : List Value} {x : Value},
    Part schema (.map members) → Value.get? members "items" = some (.map part) → x ∈ items →
    j.isValid version schema (.map members) (.list items) = .ok true →
    j.isValid version schema (.map part) x = .ok true

/-- A judge that keeps to the keywords in every schema that is made of those in `keywords` and has
the form of its version. -/
def Lawful : Prop :=
  ∀ schema version, j.versionOf schema = .ok version → j.isFormed version schema = true →
    (∀ draft, Built draft ["$schema"] schema) → j.Keeps version schema

/-- A judge that has an answer on all parts of a schema. -/
def Answers (version : j.Version) (schema : Value) : Prop :=
  ∀ members x, Part schema (.map members) →
    ∃ valid, j.isValid version schema (.map members) x = .ok valid

variable {j}

theorem Keeps.of_asks {version : j.Version} {schema whole x : Value}
    {members part : List (Value × Value)} (h : j.Keeps version schema)
    (hpart : Part schema (.map members)) (hasks : Asks members whole (.map part) x)
    (hvalid : j.isValid version schema (.map members) whole = .ok true) :
    j.isValid version schema (.map part) x = .ok true := by
  cases hasks with
  | property hproperties hsub hvalue => exact h.property hpart hproperties hsub hvalue hvalid
  | additional hsub hunnamed hvalue => exact h.additional hpart hsub hunnamed hvalue hvalid
  | item hsub hvalue => exact h.items hpart hsub hvalue hvalid

end Judge

/-! ## One step down -/

/-- What a step from a node to a child with its part of the schema keeps, and why the part
applies. -/
structure Goes (offset : Int) (members : List (Value × Value)) (id : Nat) (t : Tree) (i : Nat)
    (child : Tree) (part : Value) : Prop where
  held : child.contains offset = true
  simple : child.Simple
  spelled : child.Spelled
  smaller : child.size < t.size
  place : ∀ root above, ⟨id, above, t⟩ ∈ Tree.places root →
    ∃ above', ⟨i, above', child⟩ ∈ Tree.places root
  asked : ∀ ms, part = .map ms → Asks members t.ownData part child.ownData

section

variable {offset : Int} {members : List (Value × Value)} {id i : Nat} {info : Info}
variable {child : Tree} {part : Value}

theorem goes_sequence {items : List Tree} (hsimple : (Tree.sequence info items).Simple)
    (hspelled : (Tree.sequence info items).Spelled)
    (h : step? offset id (.sequence info items) members = some (i, child, part)) :
    Goes offset members id (.sequence info items) i child part := by
  rcases List.exists_of_findSome?_eq_some h with ⟨⟨n, item⟩, hmem, hfound⟩
  dsimp only at hfound
  split at hfound
  · rename_i hheld
    cases hfound
    have hitem := Tree.mem_of_mem_numberFrom hmem
    cases hsimple with
    | sequence _ _ parts =>
      refine ⟨hheld, parts _ hitem, hspelled.below hitem, Tree.size_lt_of_mem_children hitem,
        ?_, ?_⟩
      · intro root above hplace
        have hbranch : ⟨.entry, i, child⟩ ∈ Tree.branches id (.sequence info items) :=
          List.mem_map.2 ⟨_, hmem, rfl⟩
        exact ⟨_, Tree.place_below hplace hbranch⟩
      · intro ms hms
        rw [Tree.ownData_sequence parts, hms]
        refine .item ?_ (List.mem_map_of_mem hitem)
        cases hitems : Value.get? members "items" with
        | none => simp [hitems] at hms
        | some v => simpa [hitems] using hms
  · cases hfound

def stepInto (i : Nat) (value : Tree) : Option Value → Option (Nat × Tree × Value)
  | some part => some (i, value, part)
  | none => some (i, value, .null)

theorem goes_map {pairs : List (Tree × Tree)} (named : ∀ p ∈ pairs, ∃ s, p.1.name? = some s)
    (distinct : (pairs.map fun p => p.1.name?).Nodup) (parts : ∀ p ∈ pairs, p.2.Simple)
    (hspelled : (Tree.map info (pairs.map Tree.entry)).Spelled)
    (h : step? offset id (.map info (pairs.map Tree.entry)) members = some (i, child, part)) :
    Goes offset members id (.map info (pairs.map Tree.entry)) i child part := by
  rcases List.exists_of_findSome?_eq_some h with ⟨⟨n, e⟩, hmem, hfound⟩
  have hentry := Tree.mem_of_mem_numberFrom hmem
  rcases List.mem_map.1 hentry with ⟨p, hp, rfl⟩
  change (if p.2.contains offset then
    stepInto (n + 1 + Tree.sizeOption (some p.1)) p.2
      (((Tree.entry p).keyText?.bind (Value.get? (propertiesOf members))).orElse
        fun _ => Value.get? members "additionalProperties")
    else none) = some (i, child, part) at hfound
  have hkeyBelow : p.1 ∈ (Tree.entry p).children := by simp [Tree.entry, Tree.children]
  have hvalueBelow : p.2 ∈ (Tree.entry p).children := by simp [Tree.entry, Tree.children]
  have hspelledEntry : (Tree.entry p).Spelled := hspelled.below hentry
  rcases named p hp with ⟨s, hs⟩
  rw [Tree.keyText?_of_name? (hspelledEntry.below hkeyBelow) hs] at hfound
  split at hfound
  · rename_i hheld
    have hchild : child = p.2 ∧ i = n + 1 + p.1.size ∧ ∀ ms, part = .map ms →
        partFor members s = some part := by
      change stepInto _ _ (partFor members s) = _ at hfound
      cases hpart : partFor members s with
      | some part' =>
        rw [hpart] at hfound
        cases hfound
        exact ⟨rfl, rfl, fun _ _ => rfl⟩
      | none =>
        rw [hpart] at hfound
        cases hfound
        refine ⟨rfl, rfl, ?_⟩
        intro ms hms
        cases hms
    rcases hchild with ⟨rfl, rfl, hpart⟩
    refine ⟨hheld, parts p hp, hspelledEntry.below hvalueBelow, ?_, ?_, ?_⟩
    · exact Nat.lt_trans (Tree.size_lt_of_mem_children hvalueBelow)
        (Tree.size_lt_of_mem_children hentry)
    · intro root above hplace
      have hbranch : ⟨.entry, n, Tree.entry p⟩ ∈
          Tree.branches id (.map info (pairs.map Tree.entry)) := List.mem_map.2 ⟨_, hmem, rfl⟩
      have hside : ⟨.value, n + 1 + p.1.size, p.2⟩ ∈ Tree.branches n (Tree.entry p) := by
        simp [Tree.entry, Tree.branches, Tree.sizeOption]
      exact ⟨_, Tree.place_below (Tree.place_below hplace hbranch) hside⟩
    · intro ms hms
      rw [Tree.ownData_map named distinct parts]
      exact asks_of_partFor (hpart ms hms) (Tree.lookup?_entries named distinct hp hs)
  · cases hfound

/-- A step down goes to a child with a part of the schema that applies to it. -/
theorem goes_of_step? {t : Tree} (hsimple : t.Simple) (hspelled : t.Spelled)
    (h : step? offset id t members = some (i, child, part)) :
    Goes offset members id t i child part := by
  cases hsimple with
  | pair => cases h
  | scalar => cases h
  | sequence info items parts => exact goes_sequence (.sequence info items parts) hspelled h
  | map info pairs named distinct parts => exact goes_map named distinct parts hspelled h

end

/-- The part that a step goes to is a part of the schema. -/
theorem Part.of_step? {schema : Value} {offset : Int} {members ms : List (Value × Value)}
    {id i : Nat} {t child : Tree} (h : Part schema (.map members))
    (hstep : step? offset id t members = some (i, child, .map ms)) : Part schema (.map ms) := by
  cases t with
  | map info entries =>
    rcases List.exists_of_findSome?_eq_some hstep with ⟨⟨n, e⟩, -, hfound⟩
    cases e with
    | pair key value =>
      cases value with
      | none => cases hfound
      | some value =>
        change (if value.contains offset then
          stepInto (n + 1 + Tree.sizeOption key) value
            ((((Tree.pair key (some value)).keyText?.bind
              (Value.get? (propertiesOf members))).orElse
              fun _ => Value.get? members "additionalProperties"))
          else none) = _ at hfound
        split at hfound
        · cases hnamed : (Tree.pair key (some value)).keyText?.bind
              (Value.get? (propertiesOf members)) with
          | some part =>
            rw [hnamed] at hfound
            cases hfound
            rcases Option.bind_eq_some_iff.1 hnamed with ⟨s, -, hs⟩
            rcases exists_of_get?_propertiesOf hs with ⟨properties, hproperties, hpart⟩
            exact h.property hproperties hpart
          | none =>
            rw [hnamed] at hfound
            cases hadditional : Value.get? members "additionalProperties" with
            | none =>
              rw [hadditional] at hfound
              cases hfound
            | some part =>
              rw [hadditional] at hfound
              cases hfound
              exact h.additional hadditional
        · cases hfound
    | _ => cases hfound
  | sequence info items =>
    rcases List.exists_of_findSome?_eq_some hstep with ⟨⟨n, item⟩, -, hfound⟩
    dsimp only at hfound
    split at hfound
    · rcases Option.some.inj hfound with hnext
      have hitems : (Value.get? members "items").getD .null = .map ms := by
        simpa using congrArg (·.2.2) hnext
      cases hget : Value.get? members "items" with
      | none => simp [hget] at hitems
      | some v =>
        rw [hget, Option.getD_some] at hitems
        exact h.items (hitems ▸ hget)
    · cases hfound
  | _ => cases hstep

/-! ## The way down -/

/-- A match stands for a node that holds the offset, and says whether its data satisfies its part of
the schema. -/
def Judged (visits : List Tree.Visit) (isValid : Value → Value → Except Fault Bool) (offset : Int)
    (m : Match) : Prop :=
  ∃ t, Tree.nodeAt? visits m.node = some t ∧ t.contains offset = true ∧
    isValid m.schema (Tree.dataAt visits m.node t) = .ok m.valid

/-- The part of the schema of the second match is what the part of the first one asks of it. -/
def Passes (visits : List Tree.Visit) (m m' : Match) : Prop :=
  ∃ members t t', m.schema = .map members ∧ Tree.nodeAt? visits m.node = some t ∧
    Tree.nodeAt? visits m'.node = some t' ∧
    Asks members (Tree.dataAt visits m.node t) m'.schema (Tree.dataAt visits m'.node t')

/-- Where the way down is: at a node of the tree that is simple. -/
structure Stands (root : Tree) (id : Nat) (t : Tree) : Prop where
  place : ∃ above, ⟨id, above, t⟩ ∈ root.places
  simple : t.Simple
  spelled : t.Spelled
  size : t.size ≤ root.visits.length + 1

namespace Stands

variable {root t : Tree} {id : Nat}

theorem nodeAt? (h : Stands root id t) : Tree.nodeAt? root.visits id = some t := by
  rcases h.place with ⟨above, hplace⟩
  exact Tree.nodeAt?_place hplace

theorem dataAt (h : Stands root id t) : Tree.dataAt root.visits id t = t.ownData :=
  h.simple.readsAlike root.visits _ [] id h.size nofun

theorem go {offset : Int} {members : List (Value × Value)} {i : Nat} {child : Tree}
    {part : Value} (h : Stands root id t) (hgoes : Goes offset members id t i child part) :
    Stands root i child := by
  rcases h.place with ⟨above, hplace⟩
  exact ⟨hgoes.place root above hplace, hgoes.simple, hgoes.spelled,
    Nat.le_trans (Nat.le_of_lt hgoes.smaller) h.size⟩

end Stands

section

variable {isValid : Value → Value → Except Fault Bool} {visits : List Tree.Visit} {offset : Int}
variable {fuel id : Nat} {t : Tree}

/-- The matches from a node that holds the offset: its own, and those from where the step goes. -/
theorem trailFrom_eq_ok {members : List (Value × Value)} {ms : List Match}
    (hheld : t.contains offset = true)
    (h : trailFrom isValid visits offset (fuel + 1) id t (.map members) = .ok ms) :
    ∃ valid rest, ms = ⟨id, .map members, valid⟩ :: rest ∧
      isValid (.map members) (Tree.dataAt visits id t) = .ok valid ∧
      (step? offset id t members = none → rest = []) ∧
      ∀ i child part, step? offset id t members = some (i, child, part) →
        trailFrom isValid visits offset fuel i child part = .ok rest := by
  rw [trailFrom, if_pos hheld] at h
  rcases bind_eq_ok.1 h with ⟨valid, hvalid, hrest⟩
  cases hstep : step? offset id t members with
  | none =>
    rw [hstep] at hrest
    cases hrest
    refine ⟨valid, [], rfl, hvalid, fun _ => rfl, ?_⟩
    intro i child part hnext
    cases hnext
  | some next =>
    rcases next with ⟨i, child, part⟩
    rw [hstep] at hrest
    rcases bind_eq_ok.1 hrest with ⟨rest, htrail, hlast⟩
    cases hlast
    refine ⟨valid, rest, rfl, hvalid, ?_, ?_⟩
    · intro hnone
      cases hnone
    · intro i child part hnext
      cases hnext
      exact htrail

theorem trailFrom_of_not_map {schema : Value} (h : ∀ members, schema ≠ .map members) :
    trailFrom isValid visits offset fuel id t schema = .ok [] := by
  cases fuel with
  | zero => rfl
  | succ fuel =>
    cases schema with
    | map members => exact absurd rfl (h members)
    | _ => rfl

theorem trailFrom_of_not_held {schema : Value} (h : t.contains offset = false) :
    trailFrom isValid visits offset fuel id t schema = .ok [] := by
  cases fuel with
  | zero => rfl
  | succ fuel =>
    cases schema with
    | map members => rw [trailFrom, if_neg (by simp [h])]
    | _ => rfl

/-- With an answer on every part of the schema the way down always has its matches. -/
theorem exists_trailFrom {schema part : Value}
    (hanswers : ∀ members x, Part schema (.map members) →
      ∃ valid, isValid (.map members) x = .ok valid)
    (hpart : Part schema part) (fuel id : Nat) (t : Tree) :
    ∃ ms, trailFrom isValid visits offset fuel id t part = .ok ms := by
  induction fuel generalizing id t part with
  | zero => exact ⟨[], rfl⟩
  | succ fuel ih =>
    by_cases hmap : ∃ members, part = .map members
    · rcases hmap with ⟨members, rfl⟩
      rw [trailFrom]
      split
      · rcases hanswers members (Tree.dataAt visits id t) hpart with ⟨valid, hvalid⟩
        rw [hvalid]
        cases hstep : step? offset id t members with
        | none => exact ⟨_, rfl⟩
        | some next =>
          rcases next with ⟨i, child, next⟩
          have hrest : ∃ ms, trailFrom isValid visits offset fuel i child next = .ok ms := by
            by_cases hnext : ∃ ms, next = .map ms
            · rcases hnext with ⟨ms, rfl⟩
              exact ih (hpart.of_step? hstep) i child
            · exact ⟨[], trailFrom_of_not_map fun ms heq => hnext ⟨ms, heq⟩⟩
          rcases hrest with ⟨ms, hms⟩
          dsimp only [Bind.bind, Except.bind]
          rw [hms]
          exact ⟨_, rfl⟩
      · exact ⟨[], rfl⟩
    · exact ⟨[], trailFrom_of_not_map fun members heq => hmap ⟨members, heq⟩⟩

end

/-- The matches from a node on. -/
structure Descends (root : Tree) (isValid : Value → Value → Except Fault Bool) (offset : Int)
    (id : Nat) (t : Tree) (part : Value) (ms : List Match) : Prop where
  starts : ∀ m ∈ ms.head?, m.node = id ∧ m.schema = part ∧
    isValid part t.ownData = .ok m.valid ∧ ∃ members, part = .map members
  judged : ∀ m ∈ ms, Judged root.visits isValid offset m
  passes : ms.IsChain (Passes root.visits)
  failing : ms.IsChain fun m m' => m'.valid = false → m.valid = false

namespace Descends

variable {root t : Tree} {isValid : Value → Value → Except Fault Bool} {offset : Int} {id : Nat}
variable {members : List (Value × Value)} {valid : Bool}

theorem nil (part : Value) : Descends root isValid offset id t part [] :=
  ⟨nofun, nofun, .nil, .nil⟩

theorem judged_here (hstands : Stands root id t) (hheld : t.contains offset = true)
    (hvalid : isValid (.map members) t.ownData = .ok valid) :
    Judged root.visits isValid offset ⟨id, .map members, valid⟩ := by
  refine ⟨t, hstands.nodeAt?, hheld, ?_⟩
  rw [hstands.dataAt]
  exact hvalid

/-- The node itself, in front of the matches from a child on. -/
theorem cons {i : Nat} {child : Tree} {part : Value} {ms : List Match}
    (hstands : Stands root id t) (hheld : t.contains offset = true)
    (hvalid : isValid (.map members) t.ownData = .ok valid)
    (hkeeps : ∀ sub, part = .map sub → isValid (.map members) t.ownData = .ok true →
      isValid part child.ownData = .ok true)
    (hgoes : Goes offset members id t i child part)
    (h : Descends root isValid offset i child part ms) :
    Descends root isValid offset id t (.map members) (⟨id, .map members, valid⟩ :: ms) := by
  have hstands' := hstands.go hgoes
  refine ⟨?_, ?_, List.isChain_cons.2 ⟨?_, h.passes⟩, List.isChain_cons.2 ⟨?_, h.failing⟩⟩
  · rintro _ ⟨⟩
    exact ⟨rfl, rfl, hvalid, members, rfl⟩
  · intro m hm
    rcases List.mem_cons.1 hm with rfl | hm
    · exact judged_here hstands hheld hvalid
    · exact h.judged m hm
  · intro m hm
    rcases h.starts m hm with ⟨hnode, hschema, -, sub, hsub⟩
    refine ⟨members, t, child, rfl, hstands.nodeAt?, hnode ▸ hstands'.nodeAt?, ?_⟩
    rw [hnode, hstands.dataAt, hstands'.dataAt, hschema]
    exact hgoes.asked sub hsub
  · intro m hm hfails
    rcases h.starts m hm with ⟨-, -, hchild, sub, hsub⟩
    -- Were the node satisfied, so would be what its schema asks of the child.
    cases valid with
    | false => rfl
    | true =>
      rw [hkeeps sub hsub hvalid, hfails] at hchild
      cases hchild

theorem single (hstands : Stands root id t) (hheld : t.contains offset = true)
    (hvalid : isValid (.map members) t.ownData = .ok valid) :
    Descends root isValid offset id t (.map members) [⟨id, .map members, valid⟩] := by
  refine ⟨?_, ?_, .singleton _, .singleton _⟩
  · rintro _ ⟨⟩
    exact ⟨rfl, rfl, hvalid, members, rfl⟩
  · intro m hm
    rcases List.mem_singleton.1 hm with rfl
    exact judged_here hstands hheld hvalid

end Descends

/-- The matches that the way down from a node has, for a judge that keeps to the keywords. -/
theorem descends_trailFrom {j : Judge} {version : j.Version} {root : Tree} {schema : Value}
    (hkeeps : j.Keeps version schema) {offset : Int} {fuel id : Nat} {t : Tree} {part : Value}
    {ms : List Match} (hstands : Stands root id t) (hpart : Part schema part)
    (h : trailFrom (j.isValid version schema) root.visits offset fuel id t part = .ok ms) :
    Descends root (j.isValid version schema) offset id t part ms := by
  induction fuel generalizing id t part ms with
  | zero =>
    cases h
    exact .nil part
  | succ fuel ih =>
    by_cases hmap : ∃ members, part = .map members
    · rcases hmap with ⟨members, rfl⟩
      cases hheld : t.contains offset with
      | false =>
        rw [trailFrom_of_not_held hheld] at h
        cases h
        exact .nil _
      | true =>
        rcases trailFrom_eq_ok hheld h with ⟨valid, rest, rfl, hvalid, hnone, hnext⟩
        rw [hstands.dataAt] at hvalid
        cases hstep : step? offset id t members with
        | none =>
          rw [hnone hstep]
          exact .single hstands hheld hvalid
        | some next =>
          rcases next with ⟨i, child, next⟩
          have hgoes := goes_of_step? hstands.simple hstands.spelled hstep
          have hrest := hnext i child next hstep
          by_cases hsub : ∃ sub, next = .map sub
          · rcases hsub with ⟨sub, rfl⟩
            refine .cons hstands hheld hvalid ?_ hgoes
              (ih (hstands.go hgoes) (hpart.of_step? hstep) hrest)
            intro _ _ hholds
            exact hkeeps.of_asks hpart (hgoes.asked sub rfl) hholds
          · -- The way ends where the next part is no object.
            rw [trailFrom_of_not_map fun sub heq => hsub ⟨sub, heq⟩] at hrest
            cases hrest
            exact .single hstands hheld hvalid
    · rw [trailFrom_of_not_map fun members heq => hmap ⟨members, heq⟩] at h
      cases h
      exact .nil part

/-! ## Versions of JSON Schema -/

/-- A schema of the keywords that are dealt with, read in the version it has. -/
structure Usable (d : Draft) (schema : Value) : Prop where
  built : ∃ extra, "$ref" ∉ extra ++ keywords ∧ Built d extra schema
  formed : d.isWellFormed schema = true
  own : Draft.ofSchema d schema = .ok d

namespace Usable

variable {d : Draft} {members : List (Value × Value)}

theorem isValid_eq {schema : Value} (h : Usable d schema) (root x : Value) :
    isValid root d schema x = .ok (judge d schema x) := by
  rcases h.built with ⟨extra, hextra, hbuilt⟩
  exact isValid_eq_judge hextra hbuilt h.formed h.own root x

/-- What a keyword applies is a schema of this form. -/
theorem of_applied {name : String} {v : Value} {ms : List (Value × Value)}
    (h : Usable d (.map members)) (hmem : (.str name, v) ∈ members)
    (happlied : .map ms ∈ applied d name v) : Usable d (.map ms) := by
  rcases h.built with ⟨extra, -, hbuilt⟩
  have hfits := Draft.membersFit_iff.1 (membersFit_of_isWellFormed h.formed) _ hmem
  have hpart : Built d [] (.map ms) := by
    cases hbuilt with
    | map _ named parts => exact parts _ hmem _ happlied
  refine ⟨⟨[], by decide, hpart⟩, ?_, ofSchema_of_built hpart⟩
  rcases Draft.isWellFormed_applied hfits happlied with htruth | hformed
  · cases htruth
  · exact hformed

theorem of_part {schema part : Value} (h : Usable d schema) (hpart : Part schema part) :
    ∀ ms, part = .map ms → Usable d part := by
  induction hpart with
  | whole => exact fun _ _ => h
  | property _ hproperties hpart ih =>
    rintro ms rfl
    refine (ih _ rfl).of_applied (Value.mem_of_get? hproperties) ?_
    exact List.mem_map.2 ⟨_, Value.mem_of_get? hpart, rfl⟩
  | additional _ hpart ih =>
    rintro ms rfl
    exact (ih _ rfl).of_applied (Value.mem_of_get? hpart) (by simp [applied])
  | items _ hpart ih =>
    rintro ms rfl
    exact (ih _ rfl).of_applied (Value.mem_of_get? hpart) (by simp [applied, schemasOf])

/-- What a keyword asks to be satisfied is satisfied if the schema is. -/
theorem isValid_of_task {root whole v : Value} {name : String} {tasks : List Task}
    {part : List (Value × Value)} {x : Value} (h : Usable d (.map members))
    (hpart : Usable d (.map part)) (hmem : (.str name, v) ∈ members)
    (hsimple : simpleKeyword? d members name v whole = none)
    (htasks : tasks? members name v whole = some tasks) (ht : (.map part, x) ∈ tasks)
    (hvalid : isValid root d (.map members) whole = .ok true) :
    isValid root d (.map part) x = .ok true := by
  rcases h.built with ⟨extra, hextra, hbuilt⟩
  rw [h.isValid_eq, Except.ok.injEq] at hvalid
  rw [hpart.isValid_eq, Except.ok.injEq]
  exact judge_of_task hextra hbuilt h.formed hvalid hmem hsimple htasks ht

theorem keeps {schema : Value} (h : Usable d schema) : drafts.Keeps d schema := by
  refine ⟨?_, ?_, ?_⟩
  · intro members properties whole part s x hpart hproperties hsub hvalue
    refine (h.of_part hpart _ rfl).isValid_of_task
      (h.of_part (hpart.property hproperties hsub) _ rfl) (Value.mem_of_get? hproperties) rfl rfl ?_
    refine List.mem_filterMap.2 ⟨(.str s, .map part), Value.mem_of_get? hsub, ?_⟩
    dsimp only
    rw [show Value.lookup? (.str s) whole = some x from hvalue]
    rfl
  · intro members whole part s x hpart hsub hunnamed hvalue
    refine (h.of_part hpart _ rfl).isValid_of_task (h.of_part (hpart.additional hsub) _ rfl)
      (Value.mem_of_get? hsub) rfl rfl ?_
    refine List.mem_map.2 ⟨(.str s, x), ?_, rfl⟩
    have hmem : (.str s, x) ∈ whole := Value.mem_of_get? hvalue
    unfold additional
    split
    · rename_i properties hproperties
      rw [propertiesOf_of_get? hproperties] at hunnamed
      refine List.mem_filter.2 ⟨hmem, ?_⟩
      rw [show Value.lookup? (.str s) properties = none from hunnamed]
      rfl
    · exact hmem
  · intro members part items x hpart hsub hvalue
    refine (h.of_part hpart _ rfl).isValid_of_task (h.of_part (hpart.items hsub) _ rfl)
      (Value.mem_of_get? hsub) rfl rfl ?_
    exact List.mem_map.2 ⟨x, hvalue, rfl⟩

theorem answers {schema : Value} (h : Usable d schema) : drafts.Answers d schema :=
  fun _ x hpart => ⟨_, (h.of_part hpart _ rfl).isValid_eq schema x⟩

end Usable

/-- The version of a schema does not change by reading it in that version. -/
theorem ofSchema_ofSchema {other d : Draft} {schema : Value}
    (h : Draft.ofSchema other schema = .ok d) : Draft.ofSchema d schema = .ok d := by
  unfold Draft.ofSchema at h ⊢
  split at h
  · rfl
  · split at h
    · rfl
    · rename_i address _
      generalize Draft.ofAddress? address = found at h ⊢
      rw [← Except.ok.inj h]
      cases found <;> rfl
    · cases h
    · cases h
    · split at h
      · cases h
      · rename_i hfalse
        rw [if_neg hfalse]
  · split at h
    · cases h
    · rename_i hfalse
      rw [if_neg hfalse]
  · split at h
    · cases h
    · rename_i hfalse
      rw [if_neg hfalse]
  · cases h

theorem usable_of_built {schema : Value} {d : Draft}
    (hdraft : Draft.ofSchema .twenty schema = .ok d) (hformed : d.isWellFormed schema = true)
    (hbuilt : Built d ["$schema"] schema) :
    Usable d schema :=
  ⟨⟨["$schema"], by decide, hbuilt⟩, hformed, ofSchema_ofSchema hdraft⟩

/-- The judge that knows the versions of JSON Schema keeps to the keywords. -/
theorem drafts_lawful : drafts.Lawful := by
  intro schema d hdraft hformed hbuilt
  exact (usable_of_built hdraft hformed (hbuilt d)).keeps

end Schema

/-! ## Documents -/

namespace DocumentSet

/-- The tree of a document of a text is that of a composed node. -/
theorem exists_image_of_parse {source : String} {customTags : List String} {set : DocumentSet}
    {d : Document} {t : Tree} (h : parse source customTags = .ok set) (hd : d ∈ set.documents)
    (ht : d.root = some t) : ∃ a n, Tree.image a n = .ok t := by
  rcases exists_share h hd with ⟨share, -, hresolved, hof⟩
  rcases Document.exists_node_of_root hresolved hof ht with ⟨n, -, htree⟩
  exact ⟨_, n, htree⟩

end DocumentSet

namespace Document

open Schema

/-- The matches of a document at an offset: they start at the root, each says whether its node
satisfies its part of the schema, each part is what the one above it asks of the node, and no node
fails below one that does not. -/
structure Trails (d : Document) (isValid : Value → Value → Except Fault Bool) (schema : Value)
    (offset : Int) (ms : List Match) : Prop where
  starts : ∀ t members, d.root = some t → t.contains offset = true → schema = .map members →
    ∃ m ∈ ms.head?, m.node = 0 ∧ m.schema = schema
  judged : ∀ m ∈ ms, Judged d.visits isValid offset m
  passes : ms.IsChain (Passes d.visits)
  failing : ms.Pairwise fun m m' => m'.valid = false → m.valid = false

/-- The matches of a tree, as those of the document. -/
theorem trails_of_descends {d : Document} {t : Tree} {schema : Value} {offset : Int}
    {isValid : Value → Value → Except Fault Bool} {ms : List Match} (hroot : d.root = some t)
    (h : Descends t isValid offset 0 t schema ms)
    (hstarts : ∀ members, t.contains offset = true → schema = .map members → ms ≠ []) :
    d.Trails isValid schema offset ms := by
  have hvisits : d.visits = t.visits := by
    rw [visits, hroot]
    rfl
  refine ⟨?_, hvisits ▸ h.judged, hvisits ▸ h.passes, ?_⟩
  · intro t' members ht' hheld hmap
    rw [hroot] at ht'
    cases ht'
    cases ms with
    | nil => exact absurd rfl (hstarts members hheld hmap)
    | cons m rest => exact ⟨m, rfl, (h.starts m rfl).1, (h.starts m rfl).2.1⟩
  · let fails : Match → Match → Prop := fun m m' => m'.valid = false → m.valid = false
    have : Trans fails fails fails := ⟨fun h h' hfails => h (h' hfails)⟩
    exact List.IsChain.pairwise (R := fails) h.failing

/-- Whether a document has matches depends on the judge alone. -/
theorem matchesAt_eq {d : Document} {j : Judge} {version : j.Version} {schema : Value}
    (hversion : j.versionOf schema = .ok version) (hformed : j.isFormed version schema = true)
    (offset : Int) :
    d.matchesAt j schema offset = match d.root with
      | none => .ok []
      | some root => trailFrom (j.isValid version schema) root.visits offset
          (root.visits.length + 1) 0 root schema := by
  unfold matchesAt trail
  rw [hversion]
  simp only [Bind.bind, Except.bind, if_pos hformed]
  rfl

theorem exists_matchesAt {d : Document} {j : Judge} {version : j.Version} {schema : Value}
    (hversion : j.versionOf schema = .ok version) (hformed : j.isFormed version schema = true)
    (hanswers : j.Answers version schema) (offset : Int) :
    ∃ ms, d.matchesAt j schema offset = .ok ms := by
  rw [matchesAt_eq hversion hformed]
  cases d.root with
  | none => exact ⟨[], rfl⟩
  | some root => exact exists_trailFrom hanswers .whole _ 0 root

/-- The matches of a document without aliases, for a judge that keeps to the keywords. It has them
for every offset if the judge has its answers. -/
theorem schemasAt_trails {j : Judge} (hlawful : j.Lawful) {source : String}
    {customTags : List String} {set : DocumentSet} {d : Document} {schema : Value}
    {version : j.Version} (hparse : DocumentSet.parse source customTags = .ok set)
    (hd : d ∈ set.documents) (htame : ∀ v ∈ d.visits, v.node.Tame)
    (hversion : j.versionOf schema = .ok version) (hformed : j.isFormed version schema = true)
    (hbuilt : ∀ draft, Built draft ["$schema"] schema) (offset : Int) :
    (∀ ms, d.matchesAt j schema offset = .ok ms →
        d.Trails (j.isValid version schema) schema offset ms) ∧
      (j.Answers version schema → ∃ ms, d.matchesAt j schema offset = .ok ms) := by
  refine ⟨?_, fun hanswers => exists_matchesAt hversion hformed hanswers offset⟩
  intro ms hms
  rw [matchesAt_eq hversion hformed] at hms
  cases hroot : d.root with
  | none =>
    rw [hroot] at hms
    cases hms
    refine ⟨?_, nofun, .nil, .nil⟩
    intro t members ht
    rw [hroot] at ht
    cases ht
  | some t =>
    rw [hroot] at hms
    have hnodes : ∀ u ∈ t.walk, u.Tame := by
      intro u hu
      rcases List.mem_map.1 hu with ⟨v, hv, rfl⟩
      refine htame v ?_
      rw [visits, hroot]
      exact hv
    rcases DocumentSet.exists_image_of_parse hparse hd hroot with ⟨a, n, htree⟩
    have hplace : ⟨0, [], t⟩ ∈ t.places := by
      rw [Tree.places, Tree.placesFrom_eq]
      exact List.mem_cons_self
    have hsize : t.size ≤ t.visits.length + 1 := by
      rw [Tree.visits_eq_places, List.length_map, Tree.places, Tree.length_placesFrom]
      exact Nat.le_succ _
    have hstands : Stands t 0 t := ⟨⟨[], hplace⟩, (Tree.simple_of_tame hnodes).1,
      Tree.spelled_image htree, hsize⟩
    have hkeeps := hlawful schema version hversion hformed hbuilt
    refine trails_of_descends hroot (descends_trailFrom hkeeps hstands .whole hms) ?_
    rintro members hheld rfl rfl
    rcases trailFrom_eq_ok hheld hms with ⟨valid, rest, hcons, -⟩
    cases hcons

def mixedText : String :=
  "a: 1\nb: [x, 2]\n"

def textsSchema : Value :=
  .map [(.str "$schema", .str "http://json-schema.org/draft-07/schema#"),
    (.str "properties", .map [(.str "a", .map [(.str "type", .str "integer")])]),
    (.str "additionalProperties", .map [(.str "type", .str "array"),
      (.str "items", .map [(.str "type", .str "string")])])]

theorem built_textsSchema (draft : Draft) : Built draft ["$schema"] textsSchema := by
  have htype : ∀ name, Built draft [] (.map [(.str "type", .str name)]) := by
    intro name
    refine .map _ (by simp [keywords]) ?_
    simp [applied, Value.plainText]
  have hlist : Built draft [] (.map [(.str "type", .str "array"),
      (.str "items", .map [(.str "type", .str "string")])]) := by
    refine .map _ (by simp [keywords]) ?_
    simpa [applied, Schema.schemasOf, Value.plainText] using htype "string"
  refine .map _ (by simp [keywords]) ?_
  simpa [applied, valuesOf, Value.plainText] using ⟨htype "integer", hlist⟩

theorem schemasAt_trails_mixedText :
    drafts.Lawful ∧ ∃ set d ms, DocumentSet.parse mixedText [] = .ok set ∧ d ∈ set.documents ∧
      (∀ v ∈ d.visits, v.node.Tame) ∧ drafts.versionOf textsSchema = .ok Draft.seven ∧
      drafts.isFormed Draft.seven textsSchema = true ∧
      (∀ draft, Built draft ["$schema"] textsSchema) ∧ drafts.Answers Draft.seven textsSchema ∧
      d.matchesAt drafts textsSchema 9 = .ok ms ∧ ms.map (·.valid) = [false, false, true] ∧
      d.Trails (drafts.isValid Draft.seven textsSchema) textsSchema 9 ms := by
  have hread : ∃ set ∈ (DocumentSet.parse mixedText []).toOption, ∃ d ∈ set.documents,
      (∀ v ∈ d.visits, v.node.Tame) ∧ ∃ ms ∈ (d.schemasAt textsSchema 9).toOption,
        ms.map (·.valid) = [false, false, true] := by
    decide +kernel
  rcases hread with ⟨set, hset, d, hd, htame, ms, hms, hvalid⟩
  have hparse := toOption_eq_some.1 hset
  have hmatches : d.matchesAt drafts textsSchema 9 = .ok ms := toOption_eq_some.1 hms
  have hdraft : Draft.ofSchema .twenty textsSchema = .ok .seven := by decide +kernel
  have hversion : drafts.versionOf textsSchema = .ok Draft.seven := hdraft
  have hformed : Draft.isWellFormed .seven textsSchema = true := by decide +kernel
  have hanswers := (usable_of_built hdraft hformed (built_textsSchema .seven)).answers
  exact ⟨drafts_lawful, set, d, ms, hparse, hd, htame, hversion, hformed, built_textsSchema,
    hanswers, hmatches, hvalid,
    (schemasAt_trails drafts_lawful hparse hd htame hversion hformed built_textsSchema 9).1
      ms hmatches⟩

end Document
end YamlServer
