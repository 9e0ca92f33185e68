import Mathlib.Tactic.SplitIfs
import YamlServer.Proofs.Document.Data
import YamlServer.Proofs.Tree.Nesting
import YamlServer.Proofs.Value

/-!
# Trees without aliases

Where no alias has to be followed and the keys of each map are different texts, the data of a tree
is built from the data of its parts: a list of items, a map of values. Reading such a tree from the
document gives the same value wherever the reading comes from, so that the data of a node is a part
of the data of its parent.

* `Tree.ownData_sequence`, `Tree.ownData_map`: the data of a collection.
* `Tree.spelled_image`: a text of a converted tree is spelled as it is.
-/

namespace YamlServer

open Outcome

namespace Tree

/-! ## Nodes -/

def name? : Tree → Option String
  | .scalar _ (.str s) _ _ => some s
  | _ => none

def entryName? : Tree → Option String
  | .pair (some key) (some _) => key.name?
  | _ => none

/-- A node is no alias, and if it is a map, its keys are texts and no two of them are alike. -/
def Tame : Tree → Prop
  | .alias .. => False
  | .map _ entries => (∀ e ∈ entries, e.entryName?.isSome) ∧ (entries.map entryName?).Nodup
  | _ => True

instance (t : Tree) : Decidable t.Tame :=
  match t with
  | .alias .. => inferInstanceAs (Decidable False)
  | .map _ entries => inferInstanceAs
      (Decidable ((∀ e ∈ entries, e.entryName?.isSome) ∧ (entries.map entryName?).Nodup))
  | .scalar .. | .sequence .. | .pair .. => inferInstanceAs (Decidable True)

/-- Trees of tame nodes, by their form. Pairs stand in maps only, where they are looked into. -/
inductive Simple : Tree → Prop where
  | pair (key value : Option Tree) : Simple (.pair key value)
  | scalar (info : Info) (value : Value) (raw : String) (style : Option Yaml.Style) :
      Simple (.scalar info value raw style)
  | sequence (info : Info) (items : List Tree) (parts : ∀ t ∈ items, Simple t) :
      Simple (.sequence info items)
  | map (info : Info) (pairs : List (Tree × Tree)) (named : ∀ p ∈ pairs, ∃ s, p.1.name? = some s)
      (distinct : (pairs.map fun p => p.1.name?).Nodup) (parts : ∀ p ∈ pairs, Simple p.2) :
      Simple (.map info (pairs.map entry))

/-! ## Data -/

def ownData (t : Tree) : Value :=
  dataFrom [] t.size [] 0 t

def ownEntry (p : Tree × Tree) : Value × Value :=
  (ownData p.1, ownData p.2)

theorem exists_pairs {entries : List Tree} (h : ∀ e ∈ entries, e.entryName?.isSome) :
    ∃ pairs : List (Tree × Tree), entries = pairs.map entry := by
  induction entries with
  | nil => exact ⟨[], rfl⟩
  | cons e rest ih =>
    rcases List.forall_mem_cons.1 h with ⟨hfirst, hrest⟩
    rcases ih hrest with ⟨pairs, rfl⟩
    unfold entryName? at hfirst
    split at hfirst
    · rename_i key value
      exact ⟨(key, value) :: pairs, rfl⟩
    · cases hfirst

/-- A tree of tame nodes is simple, as are its children. -/
theorem simple_of_tame {t : Tree} (h : ∀ u ∈ t.walk, u.Tame) :
    t.Simple ∧ ∀ c ∈ t.children, c.Simple := by
  induction t using induction_children with
  | step t ih =>
    rw [walk_eq] at h
    have htop : t.Tame := h t List.mem_cons_self
    have hbelow : ∀ c ∈ t.children, c.Simple ∧ ∀ c' ∈ c.children, c'.Simple := by
      intro c hc
      refine ih c hc fun u hu => h u (List.mem_cons_of_mem _ ?_)
      exact List.mem_flatMap.2 ⟨c, hc, hu⟩
    refine ⟨?_, fun c hc => (hbelow c hc).1⟩
    cases t with
    | scalar info value raw style => exact .scalar info value raw style
    | pair key value => exact .pair key value
    | sequence info items => exact .sequence info items fun t ht => (hbelow t ht).1
    | «alias» => exact htop.elim
    | map info entries =>
      rcases exists_pairs htop.1 with ⟨pairs, rfl⟩
      refine .map info pairs ?_ ?_ ?_
      · intro p hp
        exact Option.isSome_iff_exists.1 (htop.1 (entry p) (List.mem_map_of_mem hp))
      · have hnodup := htop.2
        rwa [List.map_map] at hnodup
      · intro p hp
        refine (hbelow (entry p) (List.mem_map_of_mem hp)).2 p.2 ?_
        simp [entry, children]

theorem eq_scalar_of_name? {t : Tree} {s : String} (h : t.name? = some s) :
    ∃ info raw style, t = .scalar info (.str s) raw style := by
  unfold name? at h
  split at h
  · cases h
    exact ⟨_, _, _, rfl⟩
  · cases h

theorem ownData_of_name? {t : Tree} {s : String} (h : t.name? = some s) : t.ownData = .str s := by
  rcases eq_scalar_of_name? h with ⟨info, raw, style, rfl⟩
  rfl

theorem put_new {s : String} {v : Value} {es : List (Value × Value)}
    (h : ∀ e ∈ es, e.1 ≠ .str s) : Value.put (.str s) v es = es ++ [(.str s, v)] := by
  induction es with
  | nil => rfl
  | cons e es ih =>
    rcases List.forall_mem_cons.1 h with ⟨hfirst, hrest⟩
    rw [Value.put, if_neg fun hsame => hfirst (Value.same_str_right.1 hsame), ih hrest,
      List.cons_append]

/-- Setting different texts one after another adds an entry for each. -/
theorem foldl_put {pairs : List (Tree × Tree)} {es : List (Value × Value)}
    (named : ∀ p ∈ pairs, ∃ s, p.1.name? = some s)
    (distinct : (pairs.map fun p => p.1.name?).Nodup)
    (hnew : ∀ p ∈ pairs, ∀ e ∈ es, e.1 ≠ p.1.ownData) :
    pairs.foldl (fun acc p => Value.put p.1.ownData p.2.ownData acc) es =
      es ++ pairs.map ownEntry := by
  induction pairs generalizing es with
  | nil => simp
  | cons p rest ih =>
    rcases named p List.mem_cons_self with ⟨s, hs⟩
    rcases List.nodup_cons.1 distinct with ⟨hfirst, hdistinct⟩
    have hkey := ownData_of_name? hs
    have hput : Value.put p.1.ownData p.2.ownData es = es ++ [ownEntry p] := by
      rw [ownEntry, hkey]
      exact put_new fun e he => hkey ▸ hnew p List.mem_cons_self e he
    rw [List.foldl_cons, hput, ih (fun q hq => named q (List.mem_cons_of_mem _ hq)) hdistinct,
      List.map_cons, List.append_assoc]
    · rfl
    · intro q hq e he heq
      rcases List.mem_append.1 he with he | he
      · exact hnew q (List.mem_cons_of_mem _ hq) e he heq
      · rcases List.mem_singleton.1 he with rfl
        -- Another pair of the same text would make the keys alike.
        rcases named q (List.mem_cons_of_mem _ hq) with ⟨s', hs'⟩
        have heq' : p.1.ownData = q.1.ownData := heq
        rw [hkey, ownData_of_name? hs'] at heq'
        cases heq'
        exact hfirst (List.mem_map.2 ⟨q, hq, hs'.trans hs.symm⟩)

/-- A tree is read the same wherever the reading comes from, if the nodes being read have smaller
numbers. -/
def ReadsAlike (t : Tree) : Prop :=
  ∀ visits fuel active id, t.size ≤ fuel → (∀ x ∈ active, x < id) →
    dataFrom visits fuel active id t = t.ownData

section

variable {visits : List Visit} {fuel id : Nat} {active : List Nat} {info : Info}

theorem not_mem_of_lt (h : ∀ x ∈ active, x < id) : id ∉ active :=
  fun hmem => Nat.lt_irrefl id (h id hmem)

theorem lt_of_mem_cons {next : Nat} (h : ∀ x ∈ active, x < id) (hnext : id < next) :
    ∀ x ∈ id :: active, x < next := by
  intro x hx
  rcases List.mem_cons.1 hx with rfl | hx
  · exact hnext
  · exact Nat.lt_trans (h x hx) hnext

theorem readsAlike_scalar (value : Value) (raw : String) (style : Option Yaml.Style) :
    ReadsAlike (.scalar info value raw style) := by
  intro visits fuel active id hfuel hactive
  cases fuel with
  | zero => cases hfuel
  | succ fuel =>
    rw [dataFrom_scalar (not_mem_of_lt hactive)]
    rfl

theorem dataFrom_pair {key value : Option Tree} (hactive : ∀ x ∈ active, x < id) :
    dataFrom visits (fuel + 1) active id (.pair key value) = .null := by
  simp [dataFrom, not_mem_of_lt hactive]

theorem dataFrom_items {items : List Tree} (h : ∀ t ∈ items, ReadsAlike t)
    (hfuel : sizeList items ≤ fuel) (hactive : ∀ x ∈ active, x < id) :
    dataFrom visits (fuel + 1) active id (.sequence info items) = .list (items.map ownData) := by
  rw [dataFrom_sequence (not_mem_of_lt hactive)]
  refine congrArg Value.list ?_
  have hitems : ∀ c ∈ numberFrom (id + 1) items,
      dataFrom visits fuel (id :: active) c.1 c.2 = c.2.ownData := by
    intro c hc
    have hmem := mem_of_mem_numberFrom hc
    have hsize := Nat.le_trans (size_le_sizeList hmem) hfuel
    exact h c.2 hmem _ _ _ _ hsize (lt_of_mem_cons hactive (le_of_mem_numberFrom hc))
  calc
    (numberFrom (id + 1) items).map (fun c => dataFrom visits fuel (id :: active) c.1 c.2)
        = (numberFrom (id + 1) items).map (fun c => c.2.ownData) := List.map_congr_left hitems
    _ = ((numberFrom (id + 1) items).map (·.2)).map ownData := by rw [List.map_map]; rfl
    _ = items.map ownData := by rw [map_snd_numberFrom]

def ReadsEntry (visits : List Visit) (fuel : Nat) (active : List Nat) (c : Nat × Tree)
    (p : Tree × Tree) : Prop :=
  c.2 = entry p ∧ keyOf (dataFrom visits fuel active (c.1 + 1) p.1) = p.1.ownData ∧
    dataFrom visits fuel active (c.1 + 1 + p.1.size) p.2 = p.2.ownData

theorem forall₂_entries {start : Nat} {pairs : List (Tree × Tree)}
    (h : ∀ p ∈ pairs, ∀ n, start ≤ n → ReadsEntry visits fuel active (n, entry p) p) :
    List.Forall₂ (ReadsEntry visits fuel active) (numberFrom start (pairs.map entry)) pairs := by
  induction pairs generalizing start with
  | nil => exact .nil
  | cons p rest ih =>
    refine .cons (h p List.mem_cons_self start (Nat.le_refl _)) (ih fun q hq n hn => ?_)
    exact h q (List.mem_cons_of_mem _ hq) n (Nat.le_trans (Nat.le_add_right _ _) hn)

theorem sizeList_entries {p : Tree × Tree} {pairs : List (Tree × Tree)} (h : p ∈ pairs) :
    1 + p.1.size + p.2.size ≤ sizeList (pairs.map entry) := by
  have hentry : entry p ∈ pairs.map entry := List.mem_map_of_mem h
  exact size_le_sizeList hentry

theorem dataFrom_entries {pairs : List (Tree × Tree)}
    (named : ∀ p ∈ pairs, ∃ s, p.1.name? = some s)
    (distinct : (pairs.map fun p => p.1.name?).Nodup) (h : ∀ p ∈ pairs, ReadsAlike p.2)
    (hfuel : sizeList (pairs.map entry) ≤ fuel) (hactive : ∀ x ∈ active, x < id) :
    dataFrom visits (fuel + 1) active id (.map info (pairs.map entry)) =
      .map (pairs.map ownEntry) := by
  have hreads : ∀ p ∈ pairs, ∀ n, id + 1 ≤ n →
      ReadsEntry visits fuel (id :: active) (n, entry p) p := by
    intro p hp n hn
    have hsize := Nat.le_trans (sizeList_entries hp) hfuel
    rcases named p hp with ⟨s, hs⟩
    rcases eq_scalar_of_name? hs with ⟨info', raw, style, hkey⟩
    refine ⟨rfl, ?_, ?_⟩
    · rw [hkey, readsAlike_scalar (.str s) raw style visits fuel (id :: active) (n + 1)
        (by rw [← hkey]; omega) (lt_of_mem_cons hactive (by omega))]
      rfl
    · exact h p hp visits fuel (id :: active) _ (by omega) (lt_of_mem_cons hactive (by omega))
  have hfold : pairs.foldl (fun acc p => Value.put p.1.ownData p.2.ownData acc) [] =
      pairs.map ownEntry := foldl_put named distinct fun _ _ _ he => nomatch he
  rw [dataFrom, if_neg (by simpa using not_mem_of_lt hactive)]
  refine congrArg Value.map
    ((Abreast.foldl_eq (fun es => es) (forall₂_entries hreads) ?_ []).trans hfold)
  rintro ⟨n, _⟩ p ⟨rfl, hkey, hvalue⟩ acc
  dsimp only at hkey hvalue
  rw [← hkey, ← hvalue]
  rfl

end

/-- A tree that has the same data wherever it stands has it by itself. -/
theorem readsAlike_of_data {t : Tree} {v : Value}
    (h : ∀ visits fuel active id, sizeList t.children ≤ fuel → (∀ x ∈ active, x < id) →
      dataFrom visits (fuel + 1) active id t = v) : t.ReadsAlike ∧ t.ownData = v := by
  have hown : t.ownData = v := by
    rw [ownData, size_eq, Nat.add_comm]
    exact h [] _ [] 0 (Nat.le_refl _) nofun
  refine ⟨fun visits fuel active id hfuel hactive => ?_, hown⟩
  rw [size_eq] at hfuel
  cases fuel with
  | zero => omega
  | succ fuel => rw [hown, h visits fuel active id (by omega) hactive]

/-- Every simple tree is read the same wherever it stands. -/
theorem Simple.readsAlike {t : Tree} (h : t.Simple) : t.ReadsAlike := by
  induction h with
  | pair key value =>
    exact (readsAlike_of_data fun _ _ _ _ _ hactive => dataFrom_pair hactive).1
  | scalar info value raw style => exact readsAlike_scalar value raw style
  | sequence info items parts ih =>
    exact (readsAlike_of_data fun _ _ _ _ hfuel hactive => dataFrom_items ih hfuel hactive).1
  | map info pairs named distinct parts ih =>
    exact (readsAlike_of_data fun _ _ _ _ hfuel hactive =>
      dataFrom_entries named distinct ih hfuel hactive).1

theorem ownData_sequence {info : Info} {items : List Tree} (parts : ∀ t ∈ items, t.Simple) :
    (Tree.sequence info items).ownData = .list (items.map ownData) :=
  (readsAlike_of_data fun _ _ _ _ hfuel hactive =>
    dataFrom_items (fun t ht => (parts t ht).readsAlike) hfuel hactive).2

theorem ownData_map {info : Info} {pairs : List (Tree × Tree)}
    (named : ∀ p ∈ pairs, ∃ s, p.1.name? = some s)
    (distinct : (pairs.map fun p => p.1.name?).Nodup) (parts : ∀ p ∈ pairs, p.2.Simple) :
    (Tree.map info (pairs.map entry)).ownData = .map (pairs.map ownEntry) :=
  (readsAlike_of_data fun _ _ _ _ hfuel hactive =>
    dataFrom_entries named distinct (fun p hp => (parts p hp).readsAlike) hfuel hactive).2

/-- The value under a text is that of the only pair with it. -/
theorem lookup?_entries {pairs : List (Tree × Tree)} {p : Tree × Tree} {s : String}
    (named : ∀ p ∈ pairs, ∃ s, p.1.name? = some s)
    (distinct : (pairs.map fun p => p.1.name?).Nodup) (hp : p ∈ pairs) (hs : p.1.name? = some s) :
    Value.lookup? (.str s) (pairs.map ownEntry) = some p.2.ownData := by
  induction pairs with
  | nil => cases hp
  | cons q rest ih =>
    rcases List.nodup_cons.1 distinct with ⟨hfirst, hdistinct⟩
    rcases named q List.mem_cons_self with ⟨s', hs'⟩
    have hkey : (ownEntry q).1 = .str s' := ownData_of_name? hs'
    rw [List.map_cons, Value.lookup?, hkey]
    rcases List.mem_cons.1 hp with rfl | hp
    · rw [hs] at hs'
      cases hs'
      rw [if_pos (Value.same_str_left.2 rfl)]
      rfl
    · rw [if_neg]
      · exact ih (fun q hq => named q (List.mem_cons_of_mem _ hq)) hdistinct hp
      · intro hsame
        cases Value.same_str_left.1 hsame
        exact hfirst (List.mem_map.2 ⟨p, hp, hs.trans hs'.symm⟩)

/-! ## Spelling -/

/-- Every text among the scalars is spelled as it is. -/
def Spelled (t : Tree) : Prop :=
  ∀ r ∈ t.scalars, ∀ s, r.2.2 = .str s → s = r.2.1

theorem Spelled.below {t c : Tree} (h : t.Spelled) (hc : c ∈ t.children) : c.Spelled := by
  intro r hr
  refine h r ?_
  rw [scalars_eq]
  exact List.mem_append_right _ (List.mem_flatMap.2 ⟨c, hc, hr⟩)

theorem keyText?_of_name? {p : Tree × Tree} {s : String} (hspelled : p.1.Spelled)
    (hs : p.1.name? = some s) : (entry p).keyText? = some s := by
  rcases eq_scalar_of_name? hs with ⟨info, raw, style, hkey⟩
  rw [hkey] at hspelled
  have hraw : s = raw := hspelled (info.tag, raw, .str s) List.mem_cons_self s rfl
  rw [entry, hkey, hraw]
  rfl

theorem eq_of_plain_str {tag content s : String}
    (h : Yaml.Scalar.plain? tag content = some (.ok (.str s))) : s = content := by
  unfold Yaml.Scalar.plain? at h
  split_ifs at h
  · cases h
  · rcases map_eq_ok.1 (Option.some.inj h) with ⟨b, -, hb⟩
    cases hb
  · rcases map_eq_ok.1 (Option.some.inj h) with ⟨n, -, hn⟩
    cases hn
  · rcases map_eq_ok.1 (Option.some.inj h) with ⟨x, -, hx⟩
    cases hx
  · cases h
    rfl

/-- The texts of a converted tree are spelled as they are. -/
theorem spelled_image {a : Attached} {n : Yaml.Node} {t : Tree} (h : image a n = .ok t) :
    t.Spelled := by
  have hscalars := map_scalars_image a n
  rw [h] at hscalars
  intro r hr s hs
  rcases (mapM_scalarOf_eq_ok hscalars.symm).2 r hr with ⟨tag, -, hvalued⟩
  rw [hs] at hvalued
  rcases hvalued with hplain | ⟨hown, -⟩
  · exact eq_of_plain_str hplain
  · exact Value.str.inj hown

end Tree
end YamlServer
