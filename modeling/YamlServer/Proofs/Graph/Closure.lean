import YamlServer.Proofs.Graph.Exploration
import YamlServer.Proofs.Schema.Judgement

/-!
# Children without an entry in the graph of a JSON Schema

The graph of a JSON Schema has an entry for the name of every property whose subschema is a map, at
any depth, and for no other name. The children of an entry are the names of all properties below,
and a subschema may as well be `true` or `false`: such a property is a child, but it is passed over
when the entries are made. So the graph is not closed. What dangles are the names that are used for
such properties alone.

* `Graph.isWellFormed_of_within`: the properties of a well-formed schema have well-formed schemas.
* `Graph.dangling_ofJsonSchema`: the dangling children of the graph of a schema.
-/

namespace YamlServer
namespace Graph

open Schema Yaml

/-! ## Schemas that are well-formed -/

section WellFormed

variable {draft : Draft} {members : List (Value × Value)}

/-- The value of a keyword has the form that the version prescribes. -/
theorem fits_of_get? (h : draft.isWellFormed (.map members) = true) {keyword : String} {v : Value}
    (hget : Value.get? members keyword = some v) :
    Draft.fits draft (draft.form? keyword) v = true := by
  rw [Draft.isWellFormed, Bool.and_eq_true, Draft.membersFit_iff] at h
  exact h.1 _ (Value.mem_of_get? hget)

theorem isWellFormed_of_mem_properties (h : draft.isWellFormed (.map members) = true)
    {properties : List (Value × Value)}
    (hget : Value.get? members "properties" = some (.map properties)) {e : Value × Value}
    (he : e ∈ properties) : draft.isWellFormed e.2 = true := by
  have hfits : draft.isSchemaMap (.map properties) = true := fits_of_get? h hget
  rw [Draft.isSchemaMap, Draft.entriesWellFormed_iff] at hfits
  exact hfits e he

/-- The properties below a schema have schemas. -/
theorem isWellFormed_of_mem_nestedProperties (h : draft.isWellFormed (.map members) = true)
    {e : Value × Value} (he : e ∈ nestedProperties members) : draft.isWellFormed e.2 = true := by
  unfold nestedProperties at he
  split at he
  · rename_i hget
    exact isWellFormed_of_mem_properties h hget he
  · split at he
    · rename_i items hitems
      split at he
      · rename_i hget
        -- Where a list of schemas is allowed as well, a map is still one schema.
        have hown : draft.isWellFormed (.map items) = true := by
          have hfits := fits_of_get? h hitems
          have hform : draft.form? "items" =
              some (if draft == .twenty then .schema else .schemaOrSchemas) := rfl
          rw [hform] at hfits
          split at hfits
          · exact hfits
          · exact (Bool.or_false _).symm.trans hfits
        exact isWellFormed_of_mem_properties hown hget he
      · cases he
    · cases he

theorem isWellFormed_of_within (h : draft.isWellFormed (.map members) = true) {name sub : Value}
    (hwithin : Within (nestedProperties members) name sub) : draft.isWellFormed sub = true := by
  generalize hproperties : nestedProperties members = properties at hwithin
  induction hwithin generalizing members with
  | here hmem =>
    rw [← hproperties] at hmem
    exact isWellFormed_of_mem_nestedProperties h hmem
  | inner hmem _ ih =>
    rw [← hproperties] at hmem
    exact ih (isWellFormed_of_mem_nestedProperties h hmem) rfl

theorem isWellFormed_cases {v : Value} (h : draft.isWellFormed v = true) :
    (∃ schema, v = .map schema) ∨ ∃ b, v = .bool b := by
  cases v with
  | map schema => exact Or.inl ⟨schema, rfl⟩
  | bool b => exact Or.inr ⟨b, rfl⟩
  | _ => cases h

/-- A well-formed schema declares a type, or one is implied. -/
theorem declaredTypes_ne_nil (h : draft.isWellFormed (.map members) = true) :
    declaredTypes members ≠ [] := by
  refine (proper_iff (s := "")).1 ⟨"", members, rfl, rfl, ?_⟩
  intro t ts hget
  have hfits : Draft.isType (.list (t :: ts)) = true := fits_of_get? h hget
  rw [Draft.isType, Bool.and_eq_true, Bool.and_eq_true, List.all_eq_true] at hfits
  have hname := hfits.1.2 t List.mem_cons_self
  cases t with
  | str s => exact ⟨s, List.mem_cons_self⟩
  | _ => cases hname

end WellFormed

/-! ## The graph of a schema -/

/-- In a well-formed schema a property is passed over if its subschema is a truth value. -/
theorem passedOver_iff {draft : Draft} {members : List (Value × Value)}
    (hformed : draft.isWellFormed (.map members) = true) {parent child : Value} :
    PassedOver openValue? (nestedProperties members) parent child ↔
      (∃ schema, Within (nestedProperties members) parent (.map schema) ∧
        child ∈ (nestedProperties schema).map (·.1)) ∧
      ∀ subschema, Within (nestedProperties members) child subschema →
        ∃ b, subschema = .bool b := by
  simp only [PassedOver, reaches_iff_within]
  refine and_congr ⟨?_, ?_⟩ (forall₂_congr fun subschema hsub => ⟨?_, ?_⟩)
  · rintro ⟨part, types, below, hwithin, hopen, -, hchild⟩
    rcases openValue?_eq_some hopen with ⟨schema, rfl, -, rfl⟩
    exact ⟨schema, hwithin, hchild⟩
  · rintro ⟨schema, hwithin, hchild⟩
    have htypes := declaredTypes_ne_nil (isWellFormed_of_within hformed hwithin)
    exact ⟨.map schema, _, _, hwithin, rfl, htypes, hchild⟩
  · intro hnone
    rcases isWellFormed_cases (isWellFormed_of_within hformed hsub) with ⟨schema, rfl⟩ | hbool
    · cases hnone
    · exact hbool
  · rintro ⟨b, rfl⟩
    rfl

theorem contains_ofJsonSchema_iff {members : List (Value × Value)} {g : Graph}
    (hnames : TextNames openValue? (nestedProperties members))
    (h : ofJsonSchema (.map members) = .ok g) (s : String) :
    g.contains (.str s) = true ↔
      ∃ schema, Within (nestedProperties members) (.str s) (.map schema) := by
  rw [contains_iff, (records_ofJsonSchema hnames h).names]
  constructor
  · rintro ⟨u, ⟨part, below, hreaches, hopen, -⟩, hname⟩
    rcases openValue?_eq_some hopen with ⟨schema, rfl, -⟩
    rw [hname, reaches_iff_within] at hreaches
    exact ⟨schema, hreaches⟩
  · rintro ⟨schema, hwithin⟩
    exact ⟨_, (reaches_iff_within.2 hwithin).usedIn rfl, rfl⟩

theorem Within.nested {properties schema : List (Value × Value)} {outer name subschema : Value}
    (h : Within properties outer (.map schema))
    (hmem : (name, subschema) ∈ nestedProperties schema) : Within properties name subschema := by
  generalize hown : Value.map schema = own at h
  induction h with
  | here houter =>
    subst hown
    exact .inner houter (.here hmem)
  | inner houter _ ih => exact .inner houter (ih hown)

/-- In the graph of a well-formed schema a name has an entry if some property of that name has a map
for its subschema. So what dangles are the children all of whose properties are truth values, and
nothing does in a schema whose properties have no truth values for subschemas. -/
theorem dangling_ofJsonSchema {draft : Draft} {members : List (Value × Value)} {g : Graph}
    (hformed : draft.isWellFormed (.map members) = true)
    (hnames : TextNames openValue? (nestedProperties members))
    (h : ofJsonSchema (.map members) = .ok g) :
    (∀ s, g.contains (.str s) = true ↔
      ∃ schema, Within (nestedProperties members) (.str s) (.map schema)) ∧
    ∃ pairs, g.dangling = .ok pairs ∧
      (∀ parent child, (parent, child) ∈ pairs ↔
        (∃ schema, Within (nestedProperties members) parent (.map schema) ∧
          child ∈ (nestedProperties schema).map (·.1)) ∧
        ∀ subschema, Within (nestedProperties members) child subschema →
          ∃ b, subschema = .bool b) ∧
      ((∀ name b, ¬ Within (nestedProperties members) name (.bool b)) → pairs = []) := by
  rcases (records_ofJsonSchema hnames h).exists_dangling_iff with ⟨pairs, hpairs, hmem⟩
  have hiff := fun parent child => (hmem parent child).trans (passedOver_iff hformed)
  refine ⟨contains_ofJsonSchema_iff hnames h, pairs, hpairs, hiff, ?_⟩
  intro hbools
  refine List.eq_nil_iff_forall_not_mem.2 ?_
  rintro ⟨parent, child⟩ hpair
  -- A child is the name of a property, which would have to be a truth value.
  rcases (hiff parent child).1 hpair with ⟨⟨schema, hwithin, hchild⟩, hall⟩
  rcases List.mem_map.1 hchild with ⟨e, he, rfl⟩
  rcases hall e.2 (hwithin.nested he) with ⟨b, hb⟩
  exact hbools e.1 b (hb ▸ hwithin.nested he)

/-- The properties of `a`: `b` is `true`, and `c` has a schema. -/
def flagProperties : List (Value × Value) :=
  [(.str "b", .bool true), (.str "c", .map [(.str "type", .str "string")])]

def flagSchema : List (Value × Value) :=
  [(.str "properties", .map [(.str "a", .map [(.str "properties", .map flagProperties)])])]

def flagGraph : Graph :=
  ⟨[(.str "a", [⟨.object, [.str "b", .str "c"]⟩]), (.str "c", [⟨.string, []⟩])]⟩

/-- A schema that is well-formed in the newest version, in whose graph `b` is a child without an
entry. -/
theorem dangling_flagSchema :
    Draft.isWellFormed .twenty (.map flagSchema) = true ∧
      ofJsonSchema (.map flagSchema) = .ok flagGraph ∧
      flagGraph.dangling = .ok [(.str "a", .str "b")] ∧ flagGraph.contains (.str "b") = false :=
  ⟨by decide +kernel, by with_unfolding_all rfl, by with_unfolding_all rfl, by decide +kernel⟩

theorem textNames_flagSchema : TextNames openValue? (nestedProperties flagSchema) := by
  have htop : nestedProperties flagSchema =
      [(.str "a", .map [(.str "properties", .map flagProperties)])] := by with_unfolding_all rfl
  have ha : nestedProperties [(.str "properties", .map flagProperties)] = flagProperties := by
    with_unfolding_all rfl
  have hc : nestedProperties [(.str "type", .str "string")] = [] := by with_unfolding_all rfl
  rw [htop]
  refine .cons (fun _ _ hopen => ?_) .nil
  cases hopen
  rw [ha]
  refine .cons (fun _ _ hopen => ?_) (.cons (fun _ _ hopen => ?_) .nil)
  · cases hopen
  · cases hopen
    rw [hc]
    exact .nil

theorem dangling_ofJsonSchema_flagSchema :
    (∃ schema, Within (nestedProperties flagSchema) (.str "c") (.map schema)) ∧
    ∀ parent child, (∃ schema, Within (nestedProperties flagSchema) parent (.map schema) ∧
        child ∈ (nestedProperties schema).map (·.1)) ∧
      (∀ subschema, Within (nestedProperties flagSchema) child subschema →
        ∃ b, subschema = .bool b) ↔ (parent, child) = (.str "a", .str "b") := by
  have hformed : Draft.isWellFormed .twenty (.map flagSchema) = true := by decide +kernel
  have hgraph : ofJsonSchema (.map flagSchema) = .ok flagGraph := by with_unfolding_all rfl
  have hdangling : flagGraph.dangling = .ok [(.str "a", .str "b")] := by with_unfolding_all rfl
  rcases dangling_ofJsonSchema hformed textNames_flagSchema hgraph with
    ⟨hcontains, pairs, hpairs, hmem, -⟩
  cases hdangling.symm.trans hpairs
  refine ⟨(hcontains "c").1 (by decide +kernel), ?_⟩
  intro parent child
  rw [← hmem, List.mem_singleton]

/-! ## Shared parts -/

/-- In the graph of a schema whose parts are shared, or hold themselves, a child dangles if it is
passed over: no property of its name is a map, wherever it is met. -/
theorem dangling_ofSharedSchema {o : Objects} {schema : List (Value × Item)} {g : Graph}
    (hnames : TextNames (openItem? o) (sharedProperties o schema))
    (h : ofSharedSchema o schema = .ok g) :
    ∃ pairs, g.dangling = .ok pairs ∧ ∀ parent child, (parent, child) ∈ pairs ↔
      PassedOver (openItem? o) (sharedProperties o schema) parent child :=
  (records_ofSharedSchema hnames h).exists_dangling_iff

/-- A property `a` whose own properties are those of the whole schema, among them `b`, which is
`true`. -/
def loopObjects : Objects :=
  ⟨.cell 0, [(0, .map [(.str "properties", .cell 1)]),
    (1, .map [(.str "a", .cell 0), (.str "b", .atom (.bool true))])]⟩

-- The part that holds itself is entered once, and the search ends.
example : (ofSharedSchema loopObjects [(.str "properties", .cell 1)]).toOption.map (·.keys.length) =
    some 1 := by
  decide +kernel

end Graph
end YamlServer
