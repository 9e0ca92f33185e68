import YamlServer.Proofs.Graph.Settling
import YamlServer.Proofs.Yaml.Unfolding

/-!
# Schemas with shared parts and schemas as trees

Where parts of a schema are shared, the search looks into each part once and then passes it over.
The graph is still the one of the tree in which every part is written out, with its keys and
definitions in the same order: what a part that was looked into before would enter is settled
already. Only a part that is still being looked into may be unsettled, and a part that is met inside
itself holds itself.

The search has an end in any case, also where parts hold themselves.

* `Graph.ofSharedSchema_outcome`: the graph of a schema with shared parts.
-/

namespace YamlServer
namespace Graph

open Outcome Yaml

/-! ## The search without a bound -/

/-- Entering properties one by one, from the graph and the parts looked into so far. The outcome is
what there is in the end, or the first fault. -/
inductive Visits (o : Objects) :
    List (Value × Item) → Visited → Except GraphFault Visited → Prop where
  | nil (v : Visited) : Visits o [] v (.ok v)
  | skip {name : Value} {item : Item} {rest : List (Value × Item)} {v : Visited}
      {r : Except GraphFault Visited} : openItem? o item = none → Visits o rest v r →
      Visits o ((name, item) :: rest) v r
  | fault {name : Value} {id : Nat} {rest below : List (Value × Item)} {v : Visited}
      {types : List Value} {f : GraphFault} : openItem? o (.cell id) = some (types, below) →
      enter name types (below.map (·.1)) v.graph = .error f →
      Visits o ((name, .cell id) :: rest) v (.error f)
  | again {name : Value} {id : Nat} {rest below : List (Value × Item)} {v : Visited}
      {types : List Value} {g : Graph} {r : Except GraphFault Visited} :
      openItem? o (.cell id) = some (types, below) →
      enter name types (below.map (·.1)) v.graph = .ok g → id ∈ v.seen →
      Visits o rest ⟨g, v.seen⟩ r → Visits o ((name, .cell id) :: rest) v r
  | look {name : Value} {id : Nat} {rest below : List (Value × Item)} {v v' : Visited}
      {types : List Value} {g : Graph} {r : Except GraphFault Visited} :
      openItem? o (.cell id) = some (types, below) →
      enter name types (below.map (·.1)) v.graph = .ok g → id ∉ v.seen →
      Visits o below ⟨g, id :: v.seen⟩ (.ok v') → Visits o rest v' r →
      Visits o ((name, .cell id) :: rest) v r
  | faultBelow {name : Value} {id : Nat} {rest below : List (Value × Item)} {v : Visited}
      {types : List Value} {g : Graph} {f : GraphFault} :
      openItem? o (.cell id) = some (types, below) →
      enter name types (below.map (·.1)) v.graph = .ok g → id ∉ v.seen →
      Visits o below ⟨g, id :: v.seen⟩ (.error f) → Visits o ((name, .cell id) :: rest) v (.error f)

section Search

variable {o : Objects} {properties below : List (Value × Item)} {types : List Value} {item : Item}
  {id : Nat} {v v' : Visited} {r r' : Except GraphFault Visited}

theorem enterShared_cons_of_none (h : openItem? o item = none) (fuel : Nat) (name : Value)
    (rest : List (Value × Item)) (v : Visited) :
    enterShared o (fuel + 1) ((name, item) :: rest) v = enterShared o (fuel + 1) rest v := by
  have hentries : o.entries? item = none := Option.map_eq_none_iff.1 h
  rw [enterShared, enterShared, List.foldlM_cons]
  dsimp only
  rw [hentries]
  cases item <;> rfl

/-- A property with a schema: its part is entered, looked into if it is new, and the search goes on
with the other properties. -/
theorem enterShared_cons (h : openItem? o (.cell id) = some (types, below)) (fuel : Nat)
    (name : Value) (rest : List (Value × Item)) (v : Visited) :
    enterShared o (fuel + 1) ((name, .cell id) :: rest) v =
      (enter name types (below.map (·.1)) v.graph >>= fun g =>
        if v.seen.contains id then .ok ⟨g, v.seen⟩
        else enterShared o fuel below ⟨g, id :: v.seen⟩) >>= enterShared o (fuel + 1) rest := by
  rcases Option.map_eq_some_iff.1 h with ⟨schema, hentries, heq⟩
  cases heq
  rw [enterShared, List.foldlM_cons]
  dsimp only
  rw [hentries]
  rfl

theorem enterShared_again {name : Value} {g : Graph}
    (h : openItem? o (.cell id) = some (types, below))
    (henter : enter name types (below.map (·.1)) v.graph = .ok g) (hseen : id ∈ v.seen) (fuel : Nat)
    (rest : List (Value × Item)) :
    enterShared o (fuel + 1) ((name, .cell id) :: rest) v =
      enterShared o (fuel + 1) rest ⟨g, v.seen⟩ := by
  have hcontains : v.seen.contains id = true := List.contains_iff_mem.2 hseen
  rw [enterShared_cons h, henter, hcontains]
  rfl

theorem enterShared_look {name : Value} {g : Graph}
    (h : openItem? o (.cell id) = some (types, below))
    (henter : enter name types (below.map (·.1)) v.graph = .ok g) (hfresh : id ∉ v.seen)
    (fuel : Nat) (rest : List (Value × Item)) :
    enterShared o (fuel + 1) ((name, .cell id) :: rest) v =
      enterShared o fuel below ⟨g, id :: v.seen⟩ >>= enterShared o (fuel + 1) rest := by
  have hcontains : v.seen.contains id = false := by simpa using hfresh
  rw [enterShared_cons h, henter, hcontains]
  rfl

/-- A high enough bound on the depth does not change the outcome. -/
theorem Visits.exists_enterShared (h : Visits o properties v r) :
    ∃ n, ∀ fuel, n ≤ fuel → enterShared o (fuel + 1) properties v = r := by
  induction h with
  | nil v => exact ⟨0, fun fuel _ => rfl⟩
  | skip hopen _ ih =>
    rcases ih with ⟨n, hn⟩
    refine ⟨n, fun fuel hfuel => ?_⟩
    rw [enterShared_cons_of_none hopen, hn fuel hfuel]
  | fault hopen henter =>
    refine ⟨0, fun fuel _ => ?_⟩
    rw [enterShared_cons hopen, henter]
    rfl
  | again hopen henter hseen _ ih =>
    rcases ih with ⟨n, hn⟩
    refine ⟨n, fun fuel hfuel => ?_⟩
    rw [enterShared_again hopen henter hseen, hn fuel hfuel]
  | look hopen henter hfresh _ _ ihbelow ihrest =>
    rcases ihbelow with ⟨n, hn⟩
    rcases ihrest with ⟨m, hm⟩
    refine ⟨n + m + 1, fun fuel hfuel => ?_⟩
    obtain ⟨k, rfl⟩ := Nat.exists_eq_succ_of_ne_zero (Nat.ne_zero_of_lt hfuel)
    rw [enterShared_look hopen henter hfresh, hn k (by omega)]
    exact hm _ (by omega)
  | faultBelow hopen henter hfresh _ ih =>
    rcases ih with ⟨n, hn⟩
    refine ⟨n + 1, fun fuel hfuel => ?_⟩
    obtain ⟨k, rfl⟩ := Nat.exists_eq_succ_of_ne_zero (Nat.ne_zero_of_lt hfuel)
    rw [enterShared_look hopen henter hfresh, hn k (by omega)]
    rfl

theorem Visits.unique (h : Visits o properties v r) (h' : Visits o properties v r') : r = r' := by
  rcases h.exists_enterShared with ⟨n, hn⟩
  rcases h'.exists_enterShared with ⟨m, hm⟩
  rw [← hn (n + m) (Nat.le_add_right n m), hm (n + m) (Nat.le_add_left m n)]

/-- The parts looked into are kept, and they stay distinct. -/
theorem Visits.distinct (h : Visits o properties v r) (hdistinct : Distinct o v.seen) :
    ∀ v', r = .ok v' → Distinct o v'.seen ∧ v.seen.length ≤ v'.seen.length := by
  induction h with
  | nil v =>
    rintro v' ⟨⟩
    exact ⟨hdistinct, Nat.le_refl _⟩
  | skip _ _ ih => exact ih hdistinct
  | again _ _ _ _ ih => exact ih hdistinct
  | look hopen _ hfresh _ _ ihbelow ihrest =>
    intro v' hv'
    rcases ihbelow (hdistinct.cons hopen hfresh) _ rfl with ⟨hbelow, hlength⟩
    rcases ihrest hbelow v' hv' with ⟨hlast, hlength'⟩
    exact ⟨hlast, (Nat.le_succ _).trans (hlength.trans hlength')⟩
  | fault _ _ | faultBelow _ _ _ _ _ =>
    intro v' hv'
    cases hv'

/-- On the way down every part is new, so that the number of cells bounds the depth. -/
theorem visits_enterShared {fuel : Nat} (hdistinct : Distinct o v.seen)
    (hfuel : o.cells.length < fuel + v.seen.length) (properties : List (Value × Item)) :
    Visits o properties v (enterShared o fuel properties v) := by
  induction fuel generalizing properties v with
  | zero =>
    have hle := hdistinct.length_le
    omega
  | succ fuel ih =>
    induction properties generalizing v with
    | nil => exact .nil v
    | cons p rest ihrest =>
      rcases p with ⟨name, item⟩
      cases hopen : openItem? o item with
      | none =>
        rw [enterShared_cons_of_none hopen]
        exact .skip hopen (ihrest hdistinct hfuel)
      | some part =>
        rcases part with ⟨types, below⟩
        rcases exists_cell_of_openItem? hopen with ⟨id, -, rfl, -⟩
        cases henter : enter name types (below.map (·.1)) v.graph with
        | error f =>
          rw [enterShared_cons hopen, henter]
          exact .fault hopen henter
        | ok g =>
          by_cases hseen : id ∈ v.seen
          · rw [enterShared_again hopen henter hseen]
            exact .again hopen henter hseen (ihrest hdistinct hfuel)
          · have hnew := hdistinct.cons hopen hseen
            have hbelow := ih (v := ⟨g, id :: v.seen⟩) hnew
              (by rw [List.length_cons]; omega) below
            rw [enterShared_look hopen henter hseen]
            cases hout : enterShared o fuel below ⟨g, id :: v.seen⟩ with
            | error f =>
              rw [hout] at hbelow
              exact .faultBelow hopen henter hseen hbelow
            | ok v' =>
              rw [hout] at hbelow
              rcases hbelow.distinct hnew v' rfl with ⟨hdistinct', hlength⟩
              rw [List.length_cons] at hlength
              exact .look hopen henter hseen hbelow (ihrest hdistinct' (by omega))

/-- The search has one outcome, and the bound on the depth does not change it. -/
theorem visits_iff {fuel : Nat} (hdistinct : Distinct o v.seen)
    (hfuel : o.cells.length < fuel + v.seen.length) :
    Visits o properties v r ↔ r = enterShared o fuel properties v := by
  have hvisits := visits_enterShared hdistinct hfuel properties
  constructor
  · intro h
    exact h.unique hvisits
  · rintro rfl
    exact hvisits

end Search

/-! ## The tree of a schema -/

section Unfolded

variable {o : Objects} {entries : List (Value × Item)} {es : List (Value × Value)}

/-- What stands at a key of a map and of its tree. -/
theorem rel_itemAt? (h : List.Forall₂ o.UnfoldsEntry entries es) (key : String) :
    Option.Rel o.Unfolds (itemAt? entries key) (Value.get? es key) := by
  induction h with
  | nil => exact .none
  | @cons e f rest rest' hef _ ih =>
    rcases e with ⟨k, i⟩
    rcases f with ⟨k', v⟩
    rcases hef with ⟨hkey, hunfolds⟩
    obtain rfl : k = k' := hkey
    by_cases hsame : Value.same k (.str key) = true
    · simp only [itemAt?, List.find?_cons, hsame, Value.get?, Value.lookup?, if_true]
      exact .some hunfolds
    · simp only [itemAt?, List.find?_cons, hsame, Value.get?, Value.lookup?]
      exact ih

def membersAt? (es : List (Value × Value)) (key : String) : Option (List (Value × Value)) :=
  match Value.get? es key with
  | some (.map members) => some members
  | _ => none

theorem membersAt?_eq_some {es members : List (Value × Value)} {key : String}
    (h : Value.get? es key = some (.map members)) : membersAt? es key = some members := by
  rw [membersAt?, h]

theorem membersAt?_eq_none {es : List (Value × Value)} {key : String}
    (h : ∀ members, Value.get? es key ≠ some (.map members)) : membersAt? es key = none := by
  unfold membersAt?
  split
  · rename_i members heq
    exact absurd heq (h members)
  · rfl

theorem nestedProperties_eq (es : List (Value × Value)) :
    nestedProperties es = (membersAt? es "properties").getD
      (((membersAt? es "items").bind (membersAt? · "properties")).getD []) := by
  unfold nestedProperties
  split
  · rename_i properties hown
    rw [membersAt?_eq_some hown, Option.getD_some]
  · rename_i hown
    rw [membersAt?_eq_none hown, Option.getD_none]
    split
    · rename_i items hitems
      rw [membersAt?_eq_some hitems, Option.bind_some]
      split
      · rename_i properties hinner
        rw [membersAt?_eq_some hinner, Option.getD_some]
      · rename_i hinner
        rw [membersAt?_eq_none hinner, Option.getD_none]
    · rename_i hitems
      rw [membersAt?_eq_none hitems, Option.bind_none, Option.getD_none]

theorem sharedProperties_eq (o : Objects) (entries : List (Value × Item)) :
    sharedProperties o entries = (mapAt? o entries "properties").getD
      (((mapAt? o entries "items").bind (mapAt? o · "properties")).getD []) := by
  unfold sharedProperties
  cases mapAt? o entries "properties" with
  | some properties => rfl
  | none => cases mapAt? o entries "items" <;> rfl

/-- There is a map at a key where there is one in the tree, and its tree is that one. -/
theorem rel_mapAt? (h : List.Forall₂ o.UnfoldsEntry entries es) (key : String) :
    Option.Rel (List.Forall₂ o.UnfoldsEntry) (mapAt? o entries key) (membersAt? es key) := by
  have hrel := rel_itemAt? h key
  rw [mapAt?]
  cases hitem : itemAt? entries key with
  | none =>
    rw [hitem] at hrel
    cases hget : Value.get? es key with
    | none =>
      rw [membersAt?_eq_none (by simp [hget])]
      exact .none
    | some v =>
      rw [hget] at hrel
      cases hrel
  | some i =>
    rw [hitem] at hrel
    cases hget : Value.get? es key with
    | none =>
      rw [hget] at hrel
      cases hrel
    | some v =>
      rw [hget] at hrel
      rcases hrel with hunfolds | _
      rw [Option.bind_some]
      cases hentries : o.entries? i with
      | none =>
        rw [membersAt?_eq_none fun members heq =>
          hunfolds.ne_map hentries members (Option.some.inj (hget.symm.trans heq))]
        exact .none
      | some inner =>
        rcases hunfolds.exists_map hentries with ⟨members, rfl, hinner⟩
        rw [membersAt?_eq_some hget]
        exact .some hinner

/-- The properties below a schema, and those below its tree. -/
theorem forall₂_properties (h : List.Forall₂ o.UnfoldsEntry entries es) :
    List.Forall₂ o.UnfoldsEntry (sharedProperties o entries) (nestedProperties es) := by
  have hown := rel_mapAt? h "properties"
  have hitems := rel_mapAt? h "items"
  rw [sharedProperties_eq, nestedProperties_eq]
  revert hown hitems
  generalize mapAt? o entries "properties" = own, membersAt? es "properties" = own'
  generalize mapAt? o entries "items" = items, membersAt? es "items" = items'
  intro hown hitems
  cases hown with
  | some hproperties => exact hproperties
  | none =>
    cases hitems with
    | none => exact .nil
    | @some items items' hitems =>
      have hinner := rel_mapAt? hitems "properties"
      rw [Option.getD_none, Option.getD_none, Option.bind_some, Option.bind_some]
      revert hinner
      generalize mapAt? o items "properties" = inner, membersAt? items' "properties" = inner'
      intro hinner
      cases hinner with
      | none => exact .nil
      | some hproperties => exact hproperties

theorem names_eq (h : List.Forall₂ o.UnfoldsEntry entries es) :
    entries.map (·.1) = es.map (·.1) := by
  induction h with
  | nil => rfl
  | cons he _ ih => exact congrArg₂ List.cons he.1 ih

/-! ### Types -/

def isText : Value → Bool
  | .str _ => true
  | _ => false

/-- The types that the value at `type` names; none if one is implied instead. -/
def namedTypes? : Value → Option (List Value)
  | .str s => some [.str s]
  | .list [] => none
  | .list ts => some (ts.filter isText)
  | _ => none

/-- The type that a schema implies. -/
def impliedTypes (hasProperties hasItems : Bool) : List Value :=
  if hasProperties then [.str "object"] else if hasItems then [.str "array"] else [.str "any"]

theorem declaredTypes_eq (es : List (Value × Value)) :
    declaredTypes es = ((Value.get? es "type").bind namedTypes?).getD
      (impliedTypes (Value.get? es "properties").isSome (Value.get? es "items").isSome) := by
  unfold declaredTypes
  cases Value.get? es "type" with
  | none => rfl
  | some v =>
    cases v with
    | list ts =>
      cases ts with
      | nil => rfl
      | cons t ts =>
        refine List.filter_congr fun x _ => ?_
        cases x <;> rfl
    | _ => rfl

/-- Two values are equal, or neither is a text. -/
def AlikeAsText (v w : Value) : Prop :=
  v = w ∨ isText v = false ∧ isText w = false

theorem namedTypes?_list {vs ws : List Value} (h : List.Forall₂ AlikeAsText vs ws) :
    namedTypes? (.list vs) = namedTypes? (.list ws) := by
  have hfilter : vs.filter isText = ws.filter isText := by
    induction h with
    | nil => rfl
    | cons hvw _ ih =>
      rcases hvw with rfl | ⟨hv, hw⟩
      · rw [List.filter_cons, List.filter_cons, ih]
      · rw [List.filter_cons_of_neg (by simp [hv]), List.filter_cons_of_neg (by simp [hw]), ih]
  cases h with
  | nil => rfl
  | cons _ _ => exact congrArg some hfilter

theorem alikeAsText_expand {i : Item} {v : Value} (h : o.Unfolds i v) :
    AlikeAsText (o.expand 0 i) v := by
  cases h with
  | atom _ => exact Or.inl rfl
  | list hcell _ | map hcell _ | pairs hcell _ _ | set hcell | missing hcell =>
    refine Or.inr ⟨?_, rfl⟩
    rw [Objects.expand, hcell]
    rfl

/-- The types named are seen without looking into collections below. -/
theorem namedTypes?_expand {i : Item} {v : Value} (h : o.Unfolds i v) :
    namedTypes? (o.expand 1 i) = namedTypes? v := by
  cases h with
  | atom _ => rfl
  | list hcell hitems =>
    rw [Objects.expand, hcell]
    refine namedTypes?_list (List.forall₂_map_left_iff.2 ?_)
    exact hitems.imp fun _ _ hi => alikeAsText_expand hi
  | @pairs id entries ks vs hcell hks hvs =>
    rw [Objects.expand, hcell]
    -- Neither side names a type: a pair is not a text.
    refine namedTypes?_list (List.forall₂_iff_get.2 ⟨?_, fun n hn hn' => Or.inr ⟨?_, ?_⟩⟩)
    · have hlength := hks.length_eq
      have hlength' := hvs.length_eq
      simp only [List.length_map, List.length_zip] at hlength hlength' ⊢
      omega
    · rw [List.get_eq_getElem, List.getElem_map]
      rfl
    · rw [List.get_eq_getElem, List.getElem_map]
      rfl
  | map hcell _ =>
    rw [Objects.expand, hcell]
    rfl
  | set hcell | missing hcell => rw [Objects.expand, hcell]

theorem get?_expand (o : Objects) (entries : List (Value × Item)) (key : String) :
    Value.get? (entries.map fun (k, v) => (k, o.expand 1 v)) key =
      (itemAt? entries key).map (o.expand 1) := by
  induction entries with
  | nil => rfl
  | cons e rest ih =>
    rcases e with ⟨k, i⟩
    by_cases hsame : Value.same k (.str key) = true
    · simp [itemAt?, hsame, Value.get?, Value.lookup?]
    · simp only [itemAt?, Value.get?, List.map_cons, List.find?_cons, Value.lookup?, hsame] at ih ⊢
      exact ih

/-- A schema and its tree declare the same types. -/
theorem sharedTypes_eq (h : List.Forall₂ o.UnfoldsEntry entries es) :
    sharedTypes o entries = declaredTypes es := by
  have hsome : ∀ key,
      (Value.get? (entries.map fun (k, v) => (k, o.expand 1 v)) key).isSome =
        (Value.get? es key).isSome := by
    intro key
    have hrel := rel_itemAt? h key
    rw [get?_expand, Option.isSome_map]
    generalize itemAt? entries key = i? at hrel ⊢
    generalize Value.get? es key = v? at hrel ⊢
    cases hrel <;> rfl
  have hnamed : (Value.get? (entries.map fun (k, v) => (k, o.expand 1 v)) "type").bind namedTypes? =
      (Value.get? es "type").bind namedTypes? := by
    have hrel := rel_itemAt? h "type"
    rw [get?_expand]
    generalize itemAt? entries "type" = i? at hrel ⊢
    generalize Value.get? es "type" = v? at hrel ⊢
    cases hrel with
    | none => rfl
    | some hunfolds => exact namedTypes?_expand hunfolds
  rw [sharedTypes, declaredTypes_eq, declaredTypes_eq, hsome, hsome, hnamed]

/-- A part can be opened where its tree can, and what is below it has its tree below that. -/
theorem rel_openItem? {i : Item} {v : Value} (h : o.Unfolds i v) :
    (openItem? o i = none ∧ openValue? v = none) ∨ ∃ types below below',
      openItem? o i = some (types, below) ∧ openValue? v = some (types, below') ∧
        List.Forall₂ o.UnfoldsEntry below below' := by
  rw [openItem?]
  cases hentries : o.entries? i with
  | none =>
    refine Or.inl ⟨rfl, ?_⟩
    cases v with
    | map es => exact absurd rfl (h.ne_map hentries es)
    | _ => rfl
  | some entries =>
    rcases h.exists_map hentries with ⟨es, rfl, hes⟩
    refine Or.inr ⟨_, _, _, rfl, ?_, forall₂_properties hes⟩
    rw [openValue?, sharedTypes_eq hes]

theorem forall₂_cons_of_openItem? {item : Item} {name : Value} {rest below : List (Value × Item)}
    {types : List Value} (hopen : openItem? o item = some (types, below))
    (h : List.Forall₂ o.UnfoldsEntry ((name, item) :: rest) es) :
    ∃ v below' rest', es = (name, v) :: rest' ∧ o.Unfolds item v ∧
      openValue? v = some (types, below') ∧ List.Forall₂ o.UnfoldsEntry below below' ∧
        List.Forall₂ o.UnfoldsEntry rest rest' := by
  rcases h with _ | ⟨⟨hname, hunfolds⟩, hrest⟩
  rename_i e rest'
  rcases e with ⟨name', v⟩
  obtain rfl : name = name' := hname
  rcases rel_openItem? hunfolds with ⟨hnone, -⟩ | ⟨_, _, below', hsome, hvalue, hbelow⟩
  · cases hopen.symm.trans hnone
  · cases hopen.symm.trans hsome
    exact ⟨v, below', rest', rfl, hunfolds, hvalue, hbelow, hrest⟩

end Unfolded

/-! ## Parts below parts -/

section Below

variable {o : Objects} {entries inner below : List (Value × Item)} {types : List Value}
  {name : Value} {i j : Nat}

theorem holds_of_mem (hentries : o.entries? (.cell i) = some entries)
    (h : (name, .cell j) ∈ entries) : o.Holds i j := by
  rw [Objects.entries?] at hentries
  split at hentries
  · rename_i hcell
    cases hentries
    exact ⟨_, hcell, List.mem_map.2 ⟨_, h, rfl⟩⟩
  · cases hentries

theorem exists_holds_of_mapAt? {key : String} (hentries : o.entries? (.cell i) = some entries)
    (h : mapAt? o entries key = some inner) :
    ∃ j, o.Holds i j ∧ o.entries? (.cell j) = some inner := by
  rcases Option.bind_eq_some_iff.1 h with ⟨item, hitem, hinner⟩
  rcases Option.map_eq_some_iff.1 hitem with ⟨⟨k, item⟩, hfind, rfl⟩
  cases item with
  | atom v => cases hinner
  | cell j => exact ⟨j, holds_of_mem hentries (List.mem_of_find?_eq_some hfind), hinner⟩

/-- A schema holds the schemas of its properties, through the map of properties, and that of the
items if the properties are theirs. -/
theorem transGen_of_openItem? (h : openItem? o (.cell i) = some (types, below))
    (hmem : (name, .cell j) ∈ below) : Relation.TransGen o.Holds i j := by
  rcases Option.map_eq_some_iff.1 h with ⟨entries, hentries, heq⟩
  cases heq
  rw [sharedProperties] at hmem
  split at hmem
  · rename_i properties hown
    rcases exists_holds_of_mapAt? hentries hown with ⟨k, hk, hproperties⟩
    exact .tail (.single hk) (holds_of_mem hproperties hmem)
  · split at hmem
    · rename_i items hitems
      rcases exists_holds_of_mapAt? hentries hitems with ⟨k, hk, hitems⟩
      cases hinner : mapAt? o items "properties" with
      | none =>
        rw [hinner] at hmem
        cases hmem
      | some properties =>
        rw [hinner] at hmem
        rcases exists_holds_of_mapAt? hitems hinner with ⟨l, hl, hproperties⟩
        exact .tail (.tail (.single hk) hl) (holds_of_mem hproperties hmem)
    · cases hmem

/-- A collection is one of the properties, or is somewhere inside one. -/
def Below (o : Objects) (properties : List (Value × Item)) (i : Nat) : Prop :=
  ∃ name j, (name, .cell j) ∈ properties ∧ Relation.ReflTransGen o.Holds j i

theorem Below.tail {p : Value × Item} {rest : List (Value × Item)} (h : Below o rest i) :
    Below o (p :: rest) i := by
  rcases h with ⟨name, j, hmem, hholds⟩
  exact ⟨name, j, List.mem_cons_of_mem p hmem, hholds⟩

theorem Below.transGen (h : Below o below j) (hopen : openItem? o (.cell i) = some (types, below)) :
    Relation.TransGen o.Holds i j := by
  rcases h with ⟨name, k, hmem, hholds⟩
  exact (transGen_of_openItem? hopen hmem).trans_left hholds

end Below

/-! ## Searching and writing out -/

/-- What is below a part is settled: entering its tree again would change nothing. -/
def SettledBelow (o : Objects) (g : Graph) (i : Nat) : Prop :=
  ∀ v types below, o.Unfolds (.cell i) v → openValue? v = some (types, below) →
    ∀ u, UsedIn openValue? below u → g.Settled u

theorem SettledBelow.mono {o : Objects} {g g' : Graph} {i : Nat} (h : SettledBelow o g i)
    (hmono : ∀ u, g.Settled u → g'.Settled u) : SettledBelow o g' i :=
  fun v types below hv hopen u hu => hmono u (h v types below hv hopen u hu)

/-- Nothing in the properties holds itself, and of the parts that were looked into before, those
that are below the properties are settled. Those that hold the properties need not be. -/
structure Prepared (o : Objects) (properties : List (Value × Item)) (v : Visited) : Prop where
  founded : ∀ name i, (name, .cell i) ∈ properties → o.Founded i
  settled : ∀ i ∈ v.seen, Below o properties i → SettledBelow o v.graph i

namespace Prepared

variable {o : Objects} {rest inner : List (Value × Item)} {types : List Value} {name : Value}
  {id : Nat} {v v' : Visited}

/-- The parts that a search adds are settled, and nothing is unsettled again. -/
theorem tail {p : Value × Item} (h : Prepared o (p :: rest) v)
    (hmono : ∀ u, v.graph.Settled u → v'.graph.Settled u)
    (hseen : ∀ i ∈ v'.seen, i ∈ v.seen ∨ SettledBelow o v'.graph i) : Prepared o rest v' := by
  refine ⟨fun name i hmem => h.founded name i (List.mem_cons_of_mem p hmem), ?_⟩
  intro i hi hbelow
  rcases hseen i hi with hi | hdone
  · exact (h.settled i hi hbelow.tail).mono hmono
  · exact hdone

/-- While a part is looked into, only it and what holds it may be unsettled, and none of these is
below it. -/
theorem below {g : Graph} (h : Prepared o ((name, .cell id) :: rest) v)
    (hopen : openItem? o (.cell id) = some (types, inner))
    (hmono : ∀ u, v.graph.Settled u → g.Settled u) : Prepared o inner ⟨g, id :: v.seen⟩ := by
  have hown : o.Founded id := h.founded name id List.mem_cons_self
  refine ⟨fun name i hmem => hown.of_transGen (transGen_of_openItem? hopen hmem), ?_⟩
  intro i hi hbelow
  have hholds := hbelow.transGen hopen
  rcases List.mem_cons.1 hi with rfl | hi
  · exact absurd hholds hown.irrefl
  · exact (h.settled i hi ⟨name, id, List.mem_cons_self, hholds.to_reflTransGen⟩).mono hmono

end Prepared

/-- The search enters what the tree has, and all that it looks into is settled in the end. -/
theorem Visits.enterAll {o : Objects} {properties : List (Value × Item)} {v : Visited}
    {r : Except GraphFault Visited} (h : Visits o properties v r)
    (hprepared : Prepared o properties v) {tree : List (Value × Value)}
    (htree : List.Forall₂ o.UnfoldsEntry properties tree) :
    r.map (·.graph) = enterAll tree v.graph ∧
      ∀ v', r = .ok v' → ∀ i ∈ v'.seen, i ∈ v.seen ∨ SettledBelow o v'.graph i := by
  induction h generalizing tree with
  | nil v =>
    cases htree
    refine ⟨rfl, ?_⟩
    intro v' heq i hi
    cases heq
    exact Or.inl hi
  | @skip name item rest v r hopen _ ih =>
    rcases htree with _ | ⟨hunfolds, hrest⟩
    rename_i e tree
    rcases e with ⟨name', t⟩
    have hclosed : openValue? t = none := by
      rcases rel_openItem? hunfolds.2 with ⟨-, hnone⟩ | ⟨_, _, _, hsome, -⟩
      · exact hnone
      · cases hopen.symm.trans hsome
    rw [enterAll_cons_of_none hclosed]
    exact ih (hprepared.tail (fun _ hu => hu) fun _ hi => Or.inl hi) hrest
  | @fault name id rest below v types f hopen henter =>
    rcases forall₂_cons_of_openItem? hopen htree with ⟨t, below', rest', rfl, -, ht, hbelow, -⟩
    refine ⟨?_, fun v' heq => by cases heq⟩
    rw [enterAll_cons ht, ← names_eq hbelow, henter]
    rfl
  | @again name id rest below v types g r hopen henter hid _ ih =>
    rcases forall₂_cons_of_openItem? hopen htree with
      ⟨t, below', rest', rfl, hunfolds, ht, hbelow, hrest⟩
    have hmono : ∀ u, v.graph.Settled u → g.Settled u := fun u hu => hu.enter henter
    -- The part is one of the properties, so what is below it is settled.
    have hpart : SettledBelow o g id :=
      (hprepared.settled id hid ⟨name, id, List.mem_cons_self, .refl⟩).mono hmono
    have hnothing : Graph.enterAll below' g = .ok g :=
      enterAll_of_settled (hpart t types below' hunfolds ht)
    rcases ih (hprepared.tail hmono fun _ hi => Or.inl hi) hrest with ⟨heq, hseen⟩
    refine ⟨heq.trans ?_, hseen⟩
    rw [enterAll_cons ht, ← names_eq hbelow, henter]
    show _ = Graph.enterAll below' g >>= Graph.enterAll rest'
    rw [hnothing]
    rfl
  | @look name id rest below v v' types g r hopen henter _ _ _ ihbelow ihrest =>
    rcases forall₂_cons_of_openItem? hopen htree with
      ⟨t, below', rest', rfl, hunfolds, ht, hbelow, hrest⟩
    have hmono : ∀ u, v.graph.Settled u → g.Settled u := fun u hu => hu.enter henter
    have hinner := hprepared.below hopen hmono
    rcases ihbelow hinner hbelow with ⟨heq, hseen⟩
    have hentered := settled_of_enterAll heq.symm
    -- Whatever tree the part has, the search below it has entered that.
    have hown : SettledBelow o v'.graph id := by
      intro t' types' below'' ht' hopen' u hu
      rcases rel_openItem? ht' with ⟨hnone, -⟩ | ⟨_, _, _, hsome, hvalue, hbelow'⟩
      · cases hopen.symm.trans hnone
      · cases hopen.symm.trans hsome
        cases hopen'.symm.trans hvalue
        exact (settled_of_enterAll (ihbelow hinner hbelow').1.symm).2 u hu
    have hmono' : ∀ u, v.graph.Settled u → v'.graph.Settled u :=
      fun u hu => hentered.1 u (hmono u hu)
    have hdone : ∀ i ∈ v'.seen, i ∈ v.seen ∨ SettledBelow o v'.graph i := by
      intro i hi
      rcases hseen v' rfl i hi with hi | hi
      · rcases List.mem_cons.1 hi with rfl | hi
        · exact Or.inr hown
        · exact Or.inl hi
      · exact Or.inr hi
    rcases ihrest (hprepared.tail hmono' hdone) hrest with ⟨heq', hseen'⟩
    refine ⟨?_, ?_⟩
    · rw [heq', enterAll_cons ht, ← names_eq hbelow, henter]
      show _ = Graph.enterAll below' g >>= Graph.enterAll rest'
      rw [← heq]
      rfl
    · intro v'' hv'' i hi
      rcases hseen' v'' hv'' i hi with hi | hi
      · have hentered' := settled_of_enterAll (heq'.symm.trans (map_eq_ok.2 ⟨v'', hv'', rfl⟩))
        exact (hdone i hi).imp (fun hi => hi) fun hsettled => hsettled.mono hentered'.1
      · exact Or.inr hi
  | @faultBelow name id rest below v types g f hopen henter _ _ ih =>
    rcases forall₂_cons_of_openItem? hopen htree with
      ⟨t, below', rest', rfl, -, ht, hbelow, -⟩
    have hmono : ∀ u, v.graph.Settled u → g.Settled u := fun u hu => hu.enter henter
    rcases ih (hprepared.below hopen hmono) hbelow with ⟨heq, -⟩
    refine ⟨?_, fun v' heq => by cases heq⟩
    rw [enterAll_cons ht, ← names_eq hbelow, henter]
    show _ = Graph.enterAll below' g >>= Graph.enterAll rest'
    rw [← heq]
    rfl

/-! ## The graph of a schema -/

/-- The graph of acyclic objects is that of their tree. -/
theorem ofSharedSchema_eq_ofJsonSchema {o : Objects} {members : List (Value × Item)} {tree : Value}
    (hroot : o.entries? o.root = some members) (hacyclic : o.Acyclic)
    (htree : o.Unfolds o.root tree) : ofSharedSchema o members = ofJsonSchema tree := by
  cases hcell : o.root with
  | atom v =>
    rw [hcell] at hroot
    cases hroot
  | cell top =>
    rw [hcell] at hroot htree
    rcases htree.exists_map hroot with ⟨es, rfl, hes⟩
    have hopen : openItem? o (.cell top) =
        some (sharedTypes o members, sharedProperties o members) := by
      rw [openItem?, hroot]
      rfl
    have htop : o.Founded top := hacyclic.founded ⟨top, hcell, .refl⟩
    have hprepared : Prepared o (sharedProperties o members) ⟨⟨[]⟩, []⟩ := by
      refine ⟨fun name i hmem => ?_, fun i hi => absurd hi List.not_mem_nil⟩
      exact htop.of_transGen (transGen_of_openItem? hopen hmem)
    have hvisits := visits_enterShared (v := ⟨⟨[]⟩, []⟩) ⟨List.nodup_nil, by simp⟩
      (Nat.lt_succ_self o.cells.length) (sharedProperties o members)
    rw [ofJsonSchema_eq_enterAll, ← (hvisits.enterAll hprepared (forall₂_properties hes)).1]
    rfl

/-- The search through the objects of any text has an end and one outcome. Where none of them holds
itself, they can be written out as a tree, and the search gives the graph of that tree, with its
keys and definitions in order, or its fault. -/
theorem ofSharedSchema_outcome {cs : List Char} {o : Objects} {members : List (Value × Item)}
    (h : Objects.ofChars cs = .ok o) (hroot : o.entries? o.root = some members) :
    (∃ r, (∀ r', Visits o (sharedProperties o members) ⟨⟨[]⟩, []⟩ r' ↔ r' = r) ∧
        ofSharedSchema o members = r.map (·.graph)) ∧
      (o.Acyclic → (∃ tree, o.Unfolds o.root tree) ∧
        ∀ tree, o.Unfolds o.root tree → ofSharedSchema o members = ofJsonSchema tree) := by
  constructor
  · refine ⟨enterShared o (o.cells.length + 1) (sharedProperties o members) ⟨⟨[]⟩, []⟩, ?_, rfl⟩
    intro r'
    exact visits_iff ⟨List.nodup_nil, by simp⟩ (Nat.lt_succ_self _)
  · intro hacyclic
    refine ⟨hacyclic.exists_unfolds (Objects.simple_ofChars h), ?_⟩
    intro tree htree
    exact ofSharedSchema_eq_ofJsonSchema hroot hacyclic htree

/-- A schema of two properties that share one part, which has a property of its own. -/
def sharedSchemaText : String :=
  "\x7bproperties: \x7ba: &x \x7bproperties: \x7bb: \x7b\x7d\x7d\x7d, c: *x\x7d\x7d"

theorem ofSharedSchema_outcome_sharedSchemaText :
    ∃ o members tree g, Objects.ofChars sharedSchemaText.toList = .ok o ∧
      o.entries? o.root = some members ∧ o.Acyclic ∧ o.Unfolds o.root tree ∧
      ofSharedSchema o members = .ok g ∧ ofJsonSchema tree = .ok g ∧
      g.keys.map Value.text = ["'a'", "'b'", "'c'"] := by
  have hchecked : ∃ o ∈ (Objects.ofChars sharedSchemaText.toList).toOption,
      (∀ e ∈ o.cells, ∀ i ∈ e.2.parts, i.isAbove e.1 = true) ∧
      ∃ members ∈ o.entries? o.root, ∃ g ∈ (ofSharedSchema o members).toOption,
        g.keys.map Value.text = ["'a'", "'b'", "'c'"] := by
    decide +kernel
  rcases hchecked with ⟨o, ho, hascending, members, hmembers, g, hg, hkeys⟩
  have hobjects : Objects.ofChars sharedSchemaText.toList = .ok o := toOption_eq_some.1 ho
  have hgraph : ofSharedSchema o members = .ok g := toOption_eq_some.1 hg
  have hacyclic : o.Acyclic := Objects.acyclic_of_ascending hascending
  rcases (ofSharedSchema_outcome hobjects hmembers).2 hacyclic with ⟨⟨tree, htree⟩, hsame⟩
  exact ⟨o, members, tree, g, hobjects, hmembers, hacyclic, htree, hgraph,
    (hsame tree htree).symm.trans hgraph, hkeys⟩

end Graph
end YamlServer
