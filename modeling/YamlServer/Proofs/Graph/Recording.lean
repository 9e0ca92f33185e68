import YamlServer.Proofs.Graph.Derivation

/-!
# What a graph records

Properties are entered into a graph one by one, each with its types and the names of the properties
below it. The graph then has the definitions of these uses of names and no others, whatever the
order they came in. Its dangling children can be read off the uses: they are the children that are
never used as names themselves.

The properties of a schema are met by opening its parts again and again. How a part is opened is an
argument here, as there are two kinds of them, values and objects that may be shared.

* `Graph.Records.enter`: entering a property records its use.
* `Graph.Records.exists_dangling_iff`: the dangling children of a graph that records their uses.
-/

namespace YamlServer
namespace Graph

open Outcome

/-! ## Entries -/

theorem contains_iff {g : Graph} {s : String} :
    g.contains (.str s) = true ↔ ∃ ds, (Value.str s, ds) ∈ g.entries := by
  rw [contains, get?]
  generalize g.entries = es
  induction es with
  | nil => simp [find?]
  | cons e es ih =>
    rcases e with ⟨k, ds⟩
    rw [find?]
    split
    · rename_i hsame
      obtain rfl := Value.same_str_right.1 hsame
      exact iff_of_true rfl ⟨ds, List.mem_cons_self⟩
    · rename_i hsame
      rw [ih]
      refine exists_congr fun ds' => ⟨List.mem_cons_of_mem _, ?_⟩
      intro hmem
      rcases List.mem_cons.1 hmem with heq | hmem
      · cases heq
        exact absurd (Value.same_str_right.2 rfl) hsame
      · exact hmem

section Update

variable {s : String} {f : List Definition → List Definition} {es : List (Value × List Definition)}

/-- An entry after a change was there before, or is the one that was changed. -/
theorem mem_update {e : Value × List Definition} (h : e ∈ update (.str s) f es) :
    e ∈ es ∨ ∃ old, e = (.str s, f old) ∧ (old = [] ∨ (.str s, old) ∈ es) := by
  induction es with
  | nil => exact Or.inr ⟨[], List.mem_singleton.1 h, Or.inl rfl⟩
  | cons e' es ih =>
    rcases e' with ⟨k, ds⟩
    unfold update at h
    split at h
    · rename_i hsame
      obtain rfl := Value.same_str_right.1 hsame
      rcases List.mem_cons.1 h with rfl | h
      · exact Or.inr ⟨ds, rfl, Or.inr List.mem_cons_self⟩
      · exact Or.inl (List.mem_cons_of_mem _ h)
    · rcases List.mem_cons.1 h with rfl | h
      · exact Or.inl List.mem_cons_self
      · rcases ih h with hold | ⟨old, he, hold⟩
        · exact Or.inl (List.mem_cons_of_mem _ hold)
        · exact Or.inr ⟨old, he, hold.imp id (List.mem_cons_of_mem _)⟩

theorem exists_mem_update (s : String) (f : List Definition → List Definition)
    (es : List (Value × List Definition)) : ∃ old, (Value.str s, f old) ∈ update (.str s) f es := by
  induction es with
  | nil => exact ⟨[], List.mem_cons_self⟩
  | cons e es ih =>
    rcases e with ⟨k, ds⟩
    unfold update
    split
    · rename_i hsame
      obtain rfl := Value.same_str_right.1 hsame
      exact ⟨ds, List.mem_cons_self⟩
    · rcases ih with ⟨old, hold⟩
      exact ⟨old, List.mem_cons_of_mem _ hold⟩

/-- A change that takes nothing away leaves every entry what it has. -/
theorem exists_mem_update_of_mem (hf : ∀ ds, ds ⊆ f ds) {k : Value} {ds : List Definition}
    (h : (k, ds) ∈ es) : ∃ ds', (k, ds') ∈ update (.str s) f es ∧ ds ⊆ ds' := by
  induction es with
  | nil => cases h
  | cons e es ih =>
    rcases e with ⟨k', ds₀⟩
    unfold update
    split
    · rcases List.mem_cons.1 h with heq | h
      · cases heq
        exact ⟨f ds, List.mem_cons_self, hf ds⟩
      · exact ⟨ds, List.mem_cons_of_mem _ h, List.Subset.refl ds⟩
    · rcases List.mem_cons.1 h with heq | h
      · cases heq
        exact ⟨ds, List.mem_cons_self, List.Subset.refl ds⟩
      · rcases ih h with ⟨ds', hmem, hsub⟩
        exact ⟨ds', List.mem_cons_of_mem _ hmem, hsub⟩

end Update

/-! ## Uses of names -/

/-- A property as it is entered: its name, its types, and the names of the properties below. -/
structure Use where
  name : Value
  types : List Value
  children : List Value

/-- The name and the children are texts. -/
def Use.Textual (u : Use) : Prop :=
  (∃ s, u.name = .str s) ∧ ∀ c ∈ u.children, ∃ s, c = .str s

/-- The entries of the graph are those of the uses: an entry for each name, with a definition for
each type, and nothing else. -/
structure Records (g : Graph) (used : Use → Prop) : Prop where
  textual : g.Textual
  names : ∀ name, (∃ ds, (name, ds) ∈ g.entries) ↔ ∃ u, used u ∧ u.name = name
  entered : ∀ u, used u → ∀ t ∈ u.types, ∃ type ds, SchemaType.parse t = .ok type ∧
    (u.name, ds) ∈ g.entries ∧ ⟨type, u.children⟩ ∈ ds
  only : ∀ e ∈ g.entries, ∀ d ∈ e.2, ∃ u, used u ∧ u.name = e.1 ∧ u.children = d.children ∧
    ∃ t ∈ u.types, SchemaType.parse t = .ok d.type

/-- Each definition of a property is that of one of its types. -/
theorem exists_type_of_mapM {types children : List Value} {ds : List Definition}
    (h : (types.mapM fun t => do
      let type ← SchemaType.parse t
      return Definition.mk type children) = .ok ds) {d : Definition} (hd : d ∈ ds) :
    ∃ t ∈ types, SchemaType.parse t = .ok d.type := by
  induction types generalizing ds with
  | nil =>
    cases h
    cases hd
  | cons t types ih =>
    rw [List.mapM_cons] at h
    rcases bind_eq_ok.1 h with ⟨first, hfirst, hrest⟩
    rcases bind_eq_ok.1 hfirst with ⟨type, hparse, hmk⟩
    rcases bind_eq_ok.1 hrest with ⟨more, hmore, hlast⟩
    cases hmk
    cases hlast
    rcases List.mem_cons.1 hd with rfl | hd
    · exact ⟨t, List.mem_cons_self, hparse⟩
    · rcases ih hmore hd with ⟨t', ht', hparse'⟩
      exact ⟨t', List.mem_cons_of_mem _ ht', hparse'⟩

namespace Records

variable {g g' : Graph} {used used' : Use → Prop}

theorem nothing : Records ⟨[]⟩ (fun _ => False) :=
  ⟨⟨by simp, by simp⟩, by simp, by simp, by simp⟩

theorem congr (h : g.Records used) (hused : ∀ u, used u ↔ used' u) : g.Records used' := by
  obtain rfl : used = used' := funext fun u => propext (hused u)
  exact h

theorem enter (h : g.Records used) {u : Use} (hu : u.Textual)
    (henter : enter u.name u.types u.children g = .ok g') :
    g'.Records fun w => used w ∨ w = u := by
  rcases u with ⟨name, types, children⟩
  rcases hu with ⟨⟨s, rfl⟩, hchildren⟩
  rcases bind_eq_ok.1 henter with ⟨ds, hds, hlast⟩
  cases hlast
  rcases mapM_definitions hds with ⟨hown, htypes⟩
  have htexts : ∀ d ∈ ds, ∀ c ∈ d.children, ∃ t, c = .str t := by
    intro d hd c hc
    rw [hown d hd] at hc
    exact hchildren c hc
  have hfold := foldl_addDefinition htexts
  refine ⟨?_, ?_, ?_, ?_⟩
  · refine textual_update h.textual ?_
    intro old hold d hd
    rcases List.mem_append.1 ((hfold old).2.2 hd) with hmem | hmem
    · exact htexts d hmem
    · exact hold d hmem
  -- The names with entries are those from before and the new one.
  · intro name
    constructor
    · rintro ⟨ds', hmem⟩
      rcases mem_update hmem with hold | ⟨old, heq, -⟩
      · rcases (h.names name).1 ⟨ds', hold⟩ with ⟨w, hw, hname⟩
        exact ⟨w, Or.inl hw, hname⟩
      · cases heq
        exact ⟨_, Or.inr rfl, rfl⟩
    · rintro ⟨w, hw | rfl, rfl⟩
      · rcases (h.names w.name).2 ⟨w, hw, rfl⟩ with ⟨ds', hmem⟩
        rcases exists_mem_update_of_mem (fun old => (hfold old).1) hmem with ⟨ds'', hmem', -⟩
        exact ⟨ds'', hmem'⟩
      · rcases exists_mem_update s _ g.entries with ⟨old, hmem⟩
        exact ⟨_, hmem⟩
  -- Definitions are only added, so those from before are still there.
  · rintro w (hw | rfl) t ht
    · rcases h.entered w hw t ht with ⟨type, ds', hparse, hmem, hd⟩
      rcases exists_mem_update_of_mem (fun old => (hfold old).1) hmem with ⟨ds'', hmem', hsub⟩
      exact ⟨type, ds'', hparse, hmem', hsub hd⟩
    · rcases htypes t ht with ⟨type, hparse, hd⟩
      rcases exists_mem_update s _ g.entries with ⟨old, hmem⟩
      exact ⟨type, _, hparse, hmem, (hfold old).2.1 hd⟩
  · intro e he d hd
    -- A definition of the entry that was changed is a new one, or was there before.
    rcases mem_update he with hold | ⟨old, rfl, hold⟩
    · rcases h.only e hold d hd with ⟨w, hw, hrest⟩
      exact ⟨w, Or.inl hw, hrest⟩
    · rcases List.mem_append.1 ((hfold old).2.2 hd) with hnew | hmem
      · exact ⟨_, Or.inr rfl, rfl, (hown d hnew).symm, exists_type_of_mapM hds hnew⟩
      · rcases hold with rfl | hold
        · cases hmem
        · rcases h.only _ hold d hmem with ⟨w, hw, hrest⟩
          exact ⟨w, Or.inl hw, hrest⟩

end Records

/-! ## Dangling children -/

theorem danglingOf_eq {g : Graph} (parent : Value) {children : List Value}
    (h : ∀ c ∈ children, ∃ s, c = .str s) :
    danglingOf g parent children =
      .ok ((children.filter fun c => !g.contains c).map fun c => (parent, c)) := by
  induction children with
  | nil => rfl
  | cons c rest ih =>
    rcases h c List.mem_cons_self with ⟨s, rfl⟩
    rw [danglingOf, ih fun c' hc' => h c' (List.mem_cons_of_mem _ hc'), List.filter_cons]
    cases g.contains (.str s) <;> rfl

/-- The children without an entry, where keys and children are texts. -/
theorem Textual.exists_dangling {g : Graph} (hg : g.Textual) :
    ∃ pairs, g.dangling = .ok pairs ∧ ∀ parent child, (parent, child) ∈ pairs ↔
      ∃ ds, (parent, ds) ∈ g.entries ∧ ∃ d ∈ ds, child ∈ d.children ∧ g.contains child = false := by
  let found (e : Value × List Definition) (d : Definition) : List (Value × Value) :=
    (d.children.filter fun c => !g.contains c).map fun c => (e.1, c)
  have hdangling : g.dangling = .ok (g.entries.map fun e => e.2.map (found e)).flatten.flatten := by
    refine bind_eq_ok.2 ⟨_, mapM_eq_map ?_, rfl⟩
    intro e he
    refine mapM_eq_map ?_
    intro d hd
    exact danglingOf_eq e.1 (hg.children e he d hd)
  refine ⟨_, hdangling, ?_⟩
  intro parent child
  constructor
  · intro h
    rcases List.mem_flatten.1 h with ⟨part, hpart, hmem⟩
    rcases List.mem_flatten.1 hpart with ⟨parts, hparts, hpart⟩
    rcases List.mem_map.1 hparts with ⟨e, he, rfl⟩
    rcases List.mem_map.1 hpart with ⟨d, hd, rfl⟩
    rcases List.mem_map.1 hmem with ⟨c, hc, heq⟩
    cases heq
    rcases List.mem_filter.1 hc with ⟨hchild, hmissing⟩
    exact ⟨e.2, he, d, hd, hchild, by simpa using hmissing⟩
  · rintro ⟨ds, he, d, hd, hchild, hmissing⟩
    refine List.mem_flatten.2 ⟨found (parent, ds) d, ?_, ?_⟩
    · exact List.mem_flatten.2 ⟨_, List.mem_map_of_mem he, List.mem_map_of_mem hd⟩
    · refine List.mem_map_of_mem (List.mem_filter.2 ⟨hchild, ?_⟩)
      rw [hmissing]
      rfl

/-- The children without an entry are those that are not used as names themselves. -/
theorem Records.exists_dangling {g : Graph} {used : Use → Prop} (h : g.Records used) :
    ∃ pairs, g.dangling = .ok pairs ∧ ∀ parent child, (parent, child) ∈ pairs ↔
      ∃ u, used u ∧ u.name = parent ∧ u.types ≠ [] ∧ child ∈ u.children ∧
        ∀ w, used w → w.name ≠ child := by
  rcases h.textual.exists_dangling with ⟨pairs, hpairs, hmem⟩
  have hmissing : ∀ s, g.contains (.str s) = false ↔ ∀ w, used w → w.name ≠ .str s := by
    intro s
    rw [← Bool.not_eq_true, contains_iff, h.names]
    simp
  refine ⟨pairs, hpairs, ?_⟩
  intro parent child
  rw [hmem]
  constructor
  · rintro ⟨ds, he, d, hd, hchild, hcontains⟩
    rcases h.textual.children _ he d hd child hchild with ⟨s, rfl⟩
    rcases h.only _ he d hd with ⟨u, hu, hname, hchildren, t, ht, -⟩
    refine ⟨u, hu, hname, List.ne_nil_of_mem ht, ?_, (hmissing s).1 hcontains⟩
    rw [hchildren]
    exact hchild
  · rintro ⟨u, hu, rfl, htypes, hchild, hnames⟩
    rcases List.exists_mem_of_ne_nil _ htypes with ⟨t, ht⟩
    rcases h.entered u hu t ht with ⟨type, ds, -, he, hd⟩
    rcases h.textual.children _ he _ hd child hchild with ⟨s, rfl⟩
    exact ⟨ds, he, _, hd, hchild, (hmissing s).2 hnames⟩

/-! ## Properties of parts -/

section Parts

variable {ι : Type} (open? : ι → Option (List Value × List (Value × ι)))

/-- A property among the given ones, or among those below them. A part that can be opened has types
and properties. -/
inductive Reaches : List (Value × ι) → Value → ι → Prop where
  | here {properties : List (Value × ι)} {name : Value} {part : ι} :
      (name, part) ∈ properties → Reaches properties name part
  | inner {properties below : List (Value × ι)} {types : List Value} {outer name : Value}
      {around part : ι} : (outer, around) ∈ properties → open? around = some (types, below) →
      Reaches below name part → Reaches properties name part

/-- The uses of the properties that can be opened. -/
def UsedIn (properties : List (Value × ι)) (u : Use) : Prop :=
  ∃ part below, Reaches open? properties u.name part ∧ open? part = some (u.types, below) ∧
    u.children = below.map (·.1)

/-- The names of properties are texts, as they are in every JSON text. -/
def TextNames (properties : List (Value × ι)) : Prop :=
  ∀ name part, Reaches open? properties name part → ∃ s, name = .str s

/-- A child that is passed over: it is the name of a property below one of the parent's, and no
property of this name can be opened. -/
def PassedOver (properties : List (Value × ι)) (parent child : Value) : Prop :=
  (∃ part types below, Reaches open? properties parent part ∧ open? part = some (types, below) ∧
      types ≠ [] ∧ child ∈ below.map (·.1)) ∧
    ∀ part, Reaches open? properties child part → open? part = none

variable {open?} {properties properties' below : List (Value × ι)} {types : List Value}
  {name : Value} {part : ι}

theorem Reaches.of_subset (h : Reaches open? properties name part)
    (hsub : properties ⊆ properties') : Reaches open? properties' name part := by
  cases h with
  | here hmem => exact .here (hsub hmem)
  | inner hmem hopen hbelow => exact .inner (hsub hmem) hopen hbelow

theorem not_reaches_nil : ¬ Reaches open? [] name part := by
  intro h
  cases h with
  | here hmem => cases hmem
  | inner hmem _ _ => cases hmem

theorem UsedIn.of_subset {u : Use} (h : UsedIn open? properties u)
    (hsub : properties ⊆ properties') : UsedIn open? properties' u := by
  rcases h with ⟨part, below, hreaches, hrest⟩
  exact ⟨part, below, hreaches.of_subset hsub, hrest⟩

theorem not_usedIn_nil {u : Use} : ¬ UsedIn open? ([] : List (Value × ι)) u := by
  rintro ⟨part, below, hreaches, -⟩
  exact not_reaches_nil hreaches

theorem Reaches.usedIn (h : Reaches open? properties name part)
    (hopen : open? part = some (types, below)) :
    UsedIn open? properties ⟨name, types, below.map (·.1)⟩ :=
  ⟨part, below, h, hopen, rfl⟩

theorem reaches_cons {name' : Value} {part' : ι} {rest : List (Value × ι)} :
    Reaches open? ((name', part') :: rest) name part ↔ (name = name' ∧ part = part') ∨
      (∃ types below, open? part' = some (types, below) ∧ Reaches open? below name part) ∨
        Reaches open? rest name part := by
  constructor
  · intro h
    cases h with
    | here hmem =>
      rcases List.mem_cons.1 hmem with heq | hmem
      · cases heq
        exact Or.inl ⟨rfl, rfl⟩
      · exact Or.inr (Or.inr (.here hmem))
    | inner hmem hopen hbelow =>
      rcases List.mem_cons.1 hmem with heq | hmem
      · cases heq
        exact Or.inr (Or.inl ⟨_, _, hopen, hbelow⟩)
      · exact Or.inr (Or.inr (.inner hmem hopen hbelow))
  · rintro (⟨rfl, rfl⟩ | ⟨types, below, hopen, hbelow⟩ | hrest)
    · exact .here List.mem_cons_self
    · exact .inner List.mem_cons_self hopen hbelow
    · exact hrest.of_subset (List.subset_cons_self _ _)

/-- The uses of a property that can be opened are its own and those below. -/
theorem usedIn_cons {rest : List (Value × ι)} (hopen : open? part = some (types, below)) {u : Use} :
    UsedIn open? ((name, part) :: rest) u ↔
      u = ⟨name, types, below.map (·.1)⟩ ∨ UsedIn open? below u ∨ UsedIn open? rest u := by
  constructor
  · rintro ⟨part', below', hreaches, hrest⟩
    rcases reaches_cons.1 hreaches with ⟨hname, rfl⟩ | ⟨_, _, hopen', hbelow⟩ | hothers
    · rcases u with ⟨name', types', children'⟩
      obtain rfl : name' = name := hname
      cases hopen.symm.trans hrest.1
      exact Or.inl (congrArg (Use.mk name' _) hrest.2)
    · cases hopen.symm.trans hopen'
      exact Or.inr (Or.inl ⟨part', below', hbelow, hrest⟩)
    · exact Or.inr (Or.inr ⟨part', below', hothers, hrest⟩)
  · rintro (rfl | ⟨part', below', hreaches, hrest⟩ | hused)
    · exact (Reaches.here List.mem_cons_self).usedIn hopen
    · exact ⟨part', below', .inner List.mem_cons_self hopen hreaches, hrest⟩
    · exact hused.of_subset (List.subset_cons_self _ _)

/-- A property that cannot be opened has no uses. -/
theorem usedIn_cons_of_none {rest : List (Value × ι)} (hopen : open? part = none) {u : Use} :
    UsedIn open? ((name, part) :: rest) u ↔ UsedIn open? rest u := by
  refine ⟨?_, fun hused => hused.of_subset (List.subset_cons_self _ _)⟩
  rintro ⟨part', below', hreaches, hrest⟩
  rcases reaches_cons.1 hreaches with ⟨-, rfl⟩ | ⟨_, _, hopen', -⟩ | hothers
  · cases hopen.symm.trans hrest.1
  · cases hopen.symm.trans hopen'
  · exact ⟨part', below', hothers, hrest⟩

namespace TextNames

variable {rest : List (Value × ι)}

theorem nil : TextNames open? ([] : List (Value × ι)) :=
  fun _ _ hreaches => absurd hreaches not_reaches_nil

theorem cons {s : String}
    (hown : ∀ types below, open? part = some (types, below) → TextNames open? below)
    (hrest : TextNames open? rest) : TextNames open? ((.str s, part) :: rest) := by
  intro n v hreaches
  rcases reaches_cons.1 hreaches with ⟨rfl, -⟩ | ⟨types, below, hopen, hbelow⟩ | hothers
  · exact ⟨s, rfl⟩
  · exact hown types below hopen n v hbelow
  · exact hrest n v hothers

theorem tail (h : TextNames open? ((name, part) :: rest)) : TextNames open? rest :=
  fun n v hreaches => h n v (hreaches.of_subset (List.subset_cons_self _ _))

theorem opened (h : TextNames open? ((name, part) :: rest))
    (hopen : open? part = some (types, below)) : TextNames open? below :=
  fun n v hreaches => h n v (.inner List.mem_cons_self hopen hreaches)

theorem textual (h : TextNames open? ((name, part) :: rest))
    (hopen : open? part = some (types, below)) :
    (Use.mk name types (below.map (·.1))).Textual := by
  refine ⟨h name part (.here List.mem_cons_self), ?_⟩
  intro c hc
  rcases List.mem_map.1 hc with ⟨e, he, rfl⟩
  exact h.opened hopen e.1 e.2 (.here he)

end TextNames

/-- The dangling children of a graph that records the uses of properties are passed over. -/
theorem Records.exists_dangling_iff {g : Graph} (h : g.Records (UsedIn open? properties)) :
    ∃ pairs, g.dangling = .ok pairs ∧ ∀ parent child, (parent, child) ∈ pairs ↔
      PassedOver open? properties parent child := by
  rcases h.exists_dangling with ⟨pairs, hpairs, hmem⟩
  refine ⟨pairs, hpairs, ?_⟩
  intro parent child
  rw [hmem]
  constructor
  · rintro ⟨u, ⟨part, below, hreaches, hopen, hchildren⟩, rfl, htypes, hchild, hmissing⟩
    rw [hchildren] at hchild
    refine ⟨⟨part, u.types, below, hreaches, hopen, htypes, hchild⟩, ?_⟩
    intro part' hpart'
    cases hopen' : open? part' with
    | none => rfl
    | some opened => exact absurd rfl (hmissing _ (hpart'.usedIn hopen'))
  · rintro ⟨⟨part, types, below, hreaches, hopen, htypes, hchild⟩, hnone⟩
    refine ⟨_, hreaches.usedIn hopen, rfl, htypes, hchild, ?_⟩
    rintro w ⟨part', below', hpart', hopen', -⟩ rfl
    rw [hnone part' hpart'] at hopen'
    cases hopen'

end Parts

end Graph
end YamlServer
