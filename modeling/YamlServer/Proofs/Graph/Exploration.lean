import YamlServer.Graph.Shared
import YamlServer.Proofs.Graph.Recording

/-!
# Every property is entered

Entering the properties of a schema records the uses of all of them, at any depth. For a schema that
is a value this goes by its depth. Where parts are shared, or hold themselves, a part that was
looked into before is entered under its new name, but it is not looked into again. Nothing is lost
by that: when the search ends, the properties of every part that was looked into are entered. And on
the way down every part is new, so that the bound on the depth is never reached.

* `Graph.openValue?`, `Graph.openItem?`: how parts of schemas are opened.
* `Graph.records_ofSharedSchema`: the graph of such a schema records the uses of its properties.
-/

namespace YamlServer
namespace Graph

open Outcome

/-! ## Schemas as values -/

def openValue? : Value → Option (List Value × List (Value × Value))
  | .map schema => some (declaredTypes schema, nestedProperties schema)
  | _ => none

theorem openValue?_eq_some {v : Value} {types : List Value} {below : List (Value × Value)}
    (h : openValue? v = some (types, below)) :
    ∃ schema, v = .map schema ∧ types = declaredTypes schema ∧ below = nestedProperties schema := by
  cases v with
  | map schema =>
    cases h
    exact ⟨schema, rfl, rfl, rfl⟩
  | _ => cases h

theorem reaches_iff_within {properties : List (Value × Value)} {name subschema : Value} :
    Reaches openValue? properties name subschema ↔ Within properties name subschema := by
  constructor
  · intro h
    induction h with
    | here hmem => exact .here hmem
    | inner hmem hopen _ ih =>
      rcases openValue?_eq_some hopen with ⟨schema, rfl, -, rfl⟩
      exact .inner hmem ih
  · intro h
    induction h with
    | here hmem => exact .here hmem
    | inner hmem _ ih => exact .inner hmem rfl ih

/-- Entering properties records all their uses. -/
theorem Records.enterProperties {g g' : Graph} {used : Use → Prop} {fuel : Nat}
    {properties : List (Value × Value)} (hg : g.Records used)
    (hnames : TextNames openValue? properties) (hfuel : depthEntries properties < fuel)
    (h : enterProperties fuel properties g = .ok g') :
    g'.Records fun u => used u ∨ UsedIn openValue? properties u := by
  -- On the fuel, for the properties below, and on the list of properties.
  induction fuel generalizing properties g g' used with
  | zero => exact absurd hfuel (Nat.not_lt_zero _)
  | succ fuel ih =>
    rw [Graph.enterProperties] at h
    induction properties generalizing g used with
    | nil =>
      cases h
      exact hg.congr fun u => (or_iff_left not_usedIn_nil).symm
    | cons e rest ihrest =>
      rcases e with ⟨name, subschema⟩
      rw [List.foldlM_cons] at h
      rcases bind_eq_ok.1 h with ⟨g₂, hfirst, hrest⟩
      rw [depthEntries] at hfuel
      have hdepth := Nat.max_lt.1 hfuel
      cases subschema with
      | map schema =>
        rcases bind_eq_ok.1 hfirst with ⟨g₁, henter, hbelow⟩
        have hown := hdepth.1
        have hnested := depthEntries_nestedProperties_le schema
        rw [depth] at hown
        have h₁ := hg.enter (hnames.textual rfl) henter
        have h₂ := ih h₁ (hnames.opened rfl) (by omega) hbelow
        refine (ihrest h₂ hnames.tail hdepth.2 hrest).congr fun u => ?_
        rw [usedIn_cons rfl, or_assoc, or_assoc]
      | _ =>
        cases hfirst
        refine (ihrest hg hnames.tail hdepth.2 hrest).congr fun u => ?_
        rw [usedIn_cons_of_none rfl]

/-- The graph of a schema records the uses of its properties. -/
theorem records_ofJsonSchema {members : List (Value × Value)} {g : Graph}
    (hnames : TextNames openValue? (nestedProperties members))
    (h : ofJsonSchema (.map members) = .ok g) :
    g.Records (UsedIn openValue? (nestedProperties members)) := by
  have hdepth : depthEntries (nestedProperties members) < depth (.map members) + 1 := by
    have hle := depthEntries_nestedProperties_le members
    simp only [depth]
    omega
  exact (Records.nothing.enterProperties hnames hdepth h).congr fun _ => iff_of_eq (false_or _)

/-! ## Schemas with shared parts -/

open Yaml

def openItem? (o : Objects) (item : Item) : Option (List Value × List (Value × Item)) :=
  (o.entries? item).map fun schema => (sharedTypes o schema, sharedProperties o schema)

variable {o : Objects} {properties below schema : List (Value × Item)} {types : List Value}

/-- What can be opened is a cell that is a map. -/
theorem exists_cell_of_openItem? {item : Item} (h : openItem? o item = some (types, below)) :
    ∃ id schema, item = .cell id ∧ o.cells.lookup id = some (.map schema) ∧
      types = sharedTypes o schema ∧ below = sharedProperties o schema := by
  rcases Option.map_eq_some_iff.1 h with ⟨schema, hentries, heq⟩
  cases heq
  cases item with
  | atom v => cases hentries
  | cell id =>
    rw [Objects.entries?] at hentries
    split at hentries
    · rename_i hcell
      cases hentries
      exact ⟨id, _, rfl, hcell, rfl, rfl⟩
    · cases hentries

/-- A property is covered if its use is recorded and its schema looked into. -/
def Covered (o : Objects) (used : Use → Prop) (seen : List Nat) (p : Value × Item) : Prop :=
  ∀ types below, openItem? o p.2 = some (types, below) →
    used ⟨p.1, types, below.map (·.1)⟩ ∧ ∃ id ∈ seen, p.2 = .cell id

theorem Covered.mono {used used' : Use → Prop} {seen seen' : List Nat} {p : Value × Item}
    (h : Covered o used seen p) (hused : ∀ u, used u → used' u) (hseen : seen ⊆ seen') :
    Covered o used' seen' p := by
  intro types below hopen
  rcases h types below hopen with ⟨hu, id, hid, hcell⟩
  exact ⟨hused _ hu, id, hseen hid, hcell⟩

/-- What entering properties does: it records uses of theirs, and covers them and the properties of
every schema that it looks into. -/
structure Explores (o : Objects) (properties : List (Value × Item)) (v v' : Visited)
    (used used' : Use → Prop) : Prop where
  records : v'.graph.Records used'
  grows : ∀ u, used u → used' u
  within : ∀ u, used' u → used u ∨ UsedIn (openItem? o) properties u
  seen : v.seen ⊆ v'.seen
  covers : ∀ p ∈ properties, Covered o used' v'.seen p
  closed : ∀ id ∈ v'.seen, id ∉ v.seen → ∀ types below,
    openItem? o (.cell id) = some (types, below) → ∀ p ∈ below, Covered o used' v'.seen p

namespace Explores

variable {v v' v'' : Visited} {used used' used'' : Use → Prop}

theorem nil (h : v.graph.Records used) : Explores o [] v v used used :=
  ⟨h, fun _ hu => hu, fun _ => Or.inl, List.Subset.refl _, by simp, fun _ hid hnew =>
    absurd hid hnew⟩

theorem cons {p : Value × Item} {rest : List (Value × Item)} (h : Explores o [p] v v' used used')
    (h' : Explores o rest v' v'' used' used'') : Explores o (p :: rest) v v'' used used'' := by
  refine ⟨h'.records, fun u hu => h'.grows u (h.grows u hu), ?_,
    List.Subset.trans h.seen h'.seen, ?_, ?_⟩
  · intro u hu
    rcases h'.within u hu with hu | hu
    · rcases h.within u hu with hu | hu
      · exact Or.inl hu
      · exact Or.inr (hu.of_subset (by simp))
    · exact Or.inr (hu.of_subset (List.subset_cons_self _ _))
  · intro q hq
    rcases List.mem_cons.1 hq with rfl | hq
    · exact (h.covers q List.mem_cons_self).mono h'.grows h'.seen
    · exact h'.covers q hq
  · intro id hid hnew types below hopen q hq
    -- The schema was looked into on the way through the first property, or through the others.
    by_cases hfirst : id ∈ v'.seen
    · exact (h.closed id hfirst hnew types below hopen q hq).mono h'.grows h'.seen
    · exact h'.closed id hid hfirst types below hopen q hq

/-- A property without a schema is passed over. -/
theorem skip {p : Value × Item} (h : v.graph.Records used) (hnone : openItem? o p.2 = none) :
    Explores o [p] v v used used := by
  refine ⟨h, fun _ hu => hu, fun _ => Or.inl, List.Subset.refl _, ?_, fun _ hid hnew =>
    absurd hid hnew⟩
  intro q hq types below hopen
  rw [List.mem_singleton.1 hq, hnone] at hopen
  cases hopen

variable {name : Value} {id : Nat} {g : Graph}

/-- A schema that was looked into before is entered under the name it is met with. -/
theorem again (hopen : openItem? o (.cell id) = some (types, below)) (hid : id ∈ v.seen)
    (hg : g.Records fun u => used u ∨ u = ⟨name, types, below.map (·.1)⟩) :
    Explores o [(name, .cell id)] v { v with graph := g } used
      fun u => used u ∨ u = ⟨name, types, below.map (·.1)⟩ := by
  refine ⟨hg, fun _ => Or.inl, ?_, List.Subset.refl _, ?_, fun _ hid' hnew => absurd hid' hnew⟩
  · intro u hu
    rw [usedIn_cons hopen]
    exact hu.imp_right Or.inl
  · intro q hq types' below' hopen'
    rw [List.mem_singleton.1 hq] at hopen' ⊢
    cases hopen.symm.trans hopen'
    exact ⟨Or.inr rfl, id, hid, rfl⟩

/-- A schema that was not looked into before is looked into. -/
theorem look (hopen : openItem? o (.cell id) = some (types, below))
    (h : Explores o below ⟨g, id :: v.seen⟩ v'
      (fun u => used u ∨ u = ⟨name, types, below.map (·.1)⟩) used') :
    Explores o [(name, .cell id)] v v' used used' := by
  refine ⟨h.records, fun u hu => h.grows u (Or.inl hu), ?_,
    List.Subset.trans (List.subset_cons_self _ _) h.seen, ?_, ?_⟩
  · intro u hu
    rw [usedIn_cons hopen]
    rcases h.within u hu with (hu | hu) | hu
    · exact Or.inl hu
    · exact Or.inr (Or.inl hu)
    · exact Or.inr (Or.inr (Or.inl hu))
  · intro q hq types' below' hopen'
    rw [List.mem_singleton.1 hq] at hopen' ⊢
    cases hopen.symm.trans hopen'
    exact ⟨h.grows _ (Or.inr rfl), id, h.seen List.mem_cons_self, rfl⟩
  -- The schema itself is new as well; its properties are those that were entered just now.
  · intro id' hid' hnew types' below' hopen' q hq
    by_cases heq : id' = id
    · rw [heq] at hopen'
      cases hopen.symm.trans hopen'
      exact h.covers q hq
    · refine h.closed id' hid' ?_ types' below' hopen' q hq
      intro hmem
      rcases List.mem_cons.1 hmem with hmem | hmem
      · exact heq hmem
      · exact hnew hmem

end Explores

/-! ## The search -/

/-- The schemas looked into are distinct maps of the data. -/
structure Distinct (o : Objects) (seen : List Nat) : Prop where
  nodup : seen.Nodup
  maps : ∀ id ∈ seen, (openItem? o (.cell id)).isSome = true

namespace Distinct

variable {seen : List Nat} {id : Nat}

theorem cons (h : Distinct o seen) (hopen : openItem? o (.cell id) = some (types, below))
    (hfresh : id ∉ seen) : Distinct o (id :: seen) := by
  refine ⟨List.nodup_cons.2 ⟨hfresh, h.nodup⟩, ?_⟩
  intro id' hid'
  rcases List.mem_cons.1 hid' with rfl | hid'
  · rw [hopen]
    rfl
  · exact h.maps id' hid'

/-- Distinct maps are no more than there are cells. -/
theorem length_le (h : Distinct o seen) : seen.length ≤ o.cells.length := by
  have hsub : seen ⊆ o.cells.map (·.1) := by
    intro id hid
    rcases Option.isSome_iff_exists.1 (h.maps id hid) with ⟨⟨types, below⟩, hopen⟩
    rcases exists_cell_of_openItem? hopen with ⟨id', schema, hcell, hlookup, -⟩
    cases hcell
    rcases List.lookup_eq_some_iff.1 hlookup with ⟨before, after, hcells, -⟩
    rw [hcells]
    simp
  have hle := (h.nodup.subperm hsub).length_le
  rwa [List.length_map] at hle

end Distinct

/-- Entering properties explores them. On the way down every schema is new, so the bound is not
reached. -/
theorem exists_explores {fuel : Nat} {v v' : Visited} {used : Use → Prop}
    (hg : v.graph.Records used) (hnames : TextNames (openItem? o) properties)
    (hdistinct : Distinct o v.seen) (hfuel : o.cells.length < fuel + v.seen.length)
    (h : enterShared o fuel properties v = .ok v') :
    ∃ used', Explores o properties v v' used used' ∧ Distinct o v'.seen := by
  induction fuel generalizing properties v v' used with
  | zero =>
    -- More schemas would have been looked into than there are.
    have hle := hdistinct.length_le
    omega
  | succ fuel ih =>
    rw [enterShared] at h
    induction properties generalizing v used with
    | nil =>
      cases h
      exact ⟨used, .nil hg, hdistinct⟩
    | cons p rest ihrest =>
      rcases p with ⟨name, item⟩
      rw [List.foldlM_cons] at h
      rcases bind_eq_ok.1 h with ⟨v₁, hfirst, hrest⟩
      dsimp only at hfirst
      -- What the first property does, from which the others go on.
      have hstep : ∃ used₁, Explores o [(name, item)] v v₁ used used₁ ∧ Distinct o v₁.seen := by
        cases hentries : o.entries? item with
        | none =>
          have hclosed : openItem? o item = none := by rw [openItem?, hentries]; rfl
          rw [hentries] at hfirst
          obtain rfl : v = v₁ := by cases item <;> exact Except.ok.inj hfirst
          exact ⟨used, .skip hg hclosed, hdistinct⟩
        | some schema =>
          have hopen : openItem? o item =
              some (sharedTypes o schema, sharedProperties o schema) := by
            rw [openItem?, hentries]
            rfl
          rcases exists_cell_of_openItem? hopen with ⟨id, -, rfl, -⟩
          rw [hentries] at hfirst
          rcases bind_eq_ok.1 hfirst with ⟨g, henter, hlook⟩
          have hentered := hg.enter (hnames.textual hopen) henter
          split at hlook
          · rename_i hseen
            cases hlook
            exact ⟨_, .again hopen (by simpa using hseen) hentered, hdistinct⟩
          · rename_i hfresh
            have hfresh' : id ∉ v.seen := by simpa using hfresh
            rcases ih hentered (hnames.opened hopen) (hdistinct.cons hopen hfresh')
              (by rw [List.length_cons]; omega) hlook with ⟨used₁, hbelow, hdistinct₁⟩
            exact ⟨used₁, hbelow.look hopen, hdistinct₁⟩
      rcases hstep with ⟨used₁, hown, hdistinct₁⟩
      have hmore : v.seen.length ≤ v₁.seen.length :=
        (hdistinct.nodup.subperm hown.seen).length_le
      rcases ihrest hown.records hnames.tail hdistinct₁ (by omega) hrest with
        ⟨used', hothers, hdistinct'⟩
      exact ⟨used', hown.cons hothers, hdistinct'⟩

/-- If the given properties are covered, and those of every schema that was looked into, then so are
all properties that are reached. -/
theorem Reaches.covered {used : Use → Prop} {seen : List Nat} {name : Value} {item : Item}
    (h : Reaches (openItem? o) properties name item)
    (hall : ∀ p ∈ properties, Covered o used seen p)
    (hclosed : ∀ id ∈ seen, ∀ types below, openItem? o (.cell id) = some (types, below) →
      ∀ p ∈ below, Covered o used seen p) :
    Covered o used seen (name, item) := by
  induction h with
  | here hmem => exact hall _ hmem
  | inner hmem hopen _ ih =>
    rcases hall _ hmem _ _ hopen with ⟨-, id, hid, rfl⟩
    exact ih (hclosed id hid _ _ hopen)

/-- The graph of a schema with shared parts records the uses of its properties. -/
theorem records_ofSharedSchema {g : Graph}
    (hnames : TextNames (openItem? o) (sharedProperties o schema))
    (h : ofSharedSchema o schema = .ok g) :
    g.Records (UsedIn (openItem? o) (sharedProperties o schema)) := by
  rcases bind_eq_ok.1 h with ⟨v, henter, hlast⟩
  cases hlast
  have hempty : Distinct o [] := ⟨List.nodup_nil, by simp⟩
  rcases exists_explores Records.nothing hnames hempty (by simp) henter with ⟨used, hexplores, -⟩
  refine hexplores.records.congr fun u => ⟨?_, ?_⟩
  -- The search starts with nothing recorded and nothing looked into.
  · intro hu
    exact (hexplores.within u hu).resolve_left id
  · rintro ⟨item, below, hreaches, hopen, hchildren⟩
    have hcovered := hreaches.covered hexplores.covers fun id hid =>
      hexplores.closed id hid (by simp)
    rcases u with ⟨name, types, children⟩
    obtain rfl : children = below.map (·.1) := hchildren
    exact (hcovered types below hopen).1

end Graph
end YamlServer
