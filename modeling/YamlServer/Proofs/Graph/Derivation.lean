import YamlServer.Graph.Derive
import YamlServer.Proofs.Graph.Findings

/-!
# Documents that follow a JSON Schema

The graph of a JSON Schema forgets where a name is used: all uses share one entry. It still has
every use. Entering a property only adds to the graph, and afterwards its name has a definition for
each of its types, with the names of the properties below it as children. A document that follows
the schema therefore stays on paths of the graph, and there is nothing to report about it.

* `Graph.validate_ofJsonSchema`: validating it reports nothing.
-/

namespace YamlServer
namespace Graph

open Outcome
open YamlServer.Tree (Place)

/-! ## Properties at any depth -/

/-- A property among the given ones, or among those of a schema below them. -/
inductive Within : List (Value × Value) → Value → Value → Prop where
  | here {properties : List (Value × Value)} {name subschema : Value} :
      (name, subschema) ∈ properties → Within properties name subschema
  | inner {properties schema : List (Value × Value)} {outer name subschema : Value} :
      (outer, .map schema) ∈ properties → Within (nestedProperties schema) name subschema →
      Within properties name subschema

/-- A property with a schema: its name is a text, its subschema a map, and a list of types has a
text among its members unless it is empty. -/
def Proper (name subschema : Value) : Prop :=
  ∃ s members, name = .str s ∧ subschema = .map members ∧
    ∀ t ts, Value.get? members "type" = some (.list (t :: ts)) → ∃ s, Value.str s ∈ t :: ts

/-- All properties, at any depth, have schemas. -/
def Regular (properties : List (Value × Value)) : Prop :=
  ∀ ⦃name subschema : Value⦄, Within properties name subschema → Proper name subschema

namespace Regular

variable {properties properties' schema : List (Value × Value)} {name : Value}

theorem below (h : Regular properties) (hmem : (name, Value.map schema) ∈ properties) :
    Regular (nestedProperties schema) :=
  fun _ _ hwithin => h (.inner hmem hwithin)

theorem of_subset (h : Regular properties) (hsub : properties' ⊆ properties) :
    Regular properties' := by
  intro n v hwithin
  cases hwithin with
  | here hmem => exact h (.here (hsub hmem))
  | inner hmem hbelow => exact h (.inner (hsub hmem) hbelow)

theorem names (h : Regular properties) : ∀ c ∈ properties.map (·.1), ∃ s, c = .str s := by
  intro c hc
  rcases List.mem_map.1 hc with ⟨e, he, rfl⟩
  rcases h (.here he) with ⟨s, -, hs, -⟩
  exact ⟨s, hs⟩

end Regular

/-- A property has a schema if that declares a type, or one is implied. -/
theorem proper_iff {s : String} {members : List (Value × Value)} :
    Proper (.str s) (.map members) ↔ declaredTypes members ≠ [] := by
  have himplied : ∀ a b : Bool, (if a then [Value.str "object"] else if b then [.str "array"]
      else [.str "any"]) ≠ [] := by decide
  constructor
  · rintro ⟨-, members', -, hmembers, htypes⟩
    cases hmembers
    simp only [declaredTypes]
    cases hget : Value.get? members "type" with
    | none => exact himplied _ _
    | some v =>
      cases v with
      | str s => simp
      | list ts =>
        cases ts with
        | nil => exact himplied _ _
        | cons t ts =>
          rcases htypes t ts hget with ⟨s, hs⟩
          exact List.ne_nil_of_mem (List.mem_filter.2 ⟨hs, rfl⟩)
      | _ => exact himplied _ _
  · intro hne
    refine ⟨s, members, rfl, rfl, ?_⟩
    intro t ts hget
    simp only [declaredTypes, hget] at hne
    rcases List.exists_mem_of_ne_nil _ hne with ⟨v, hv⟩
    rcases List.mem_filter.1 hv with ⟨hmem, hstr⟩
    cases v with
    | str s => exact ⟨s, hmem⟩
    | _ => cases hstr

def isRegular : Nat → List (Value × Value) → Bool
  | 0, properties => properties.isEmpty
  | fuel + 1, properties => properties.all fun
    | (.str _, .map schema) =>
      !(declaredTypes schema).isEmpty && isRegular fuel (nestedProperties schema)
    | _ => false

theorem regular_of_isRegular {fuel : Nat} {properties : List (Value × Value)}
    (h : isRegular fuel properties = true) : Regular properties := by
  induction fuel generalizing properties with
  | zero =>
    rw [isRegular, List.isEmpty_iff] at h
    rw [h]
    intro n v hwithin
    cases hwithin with
    | here hmem => cases hmem
    | inner hmem _ => cases hmem
  | succ fuel ih =>
    rw [isRegular, List.all_eq_true] at h
    have hentry : ∀ n v, (n, v) ∈ properties → Proper n v ∧
        ∀ schema, v = .map schema → Regular (nestedProperties schema) := by
      intro n v hmem
      have hn := h (n, v) hmem
      split at hn
      · rename_i s schema heq
        cases heq
        rcases Bool.and_eq_true_iff.1 hn with ⟨htypes, hbelow⟩
        have hne : declaredTypes schema ≠ [] := by simpa using htypes
        refine ⟨proper_iff.2 hne, ?_⟩
        rintro schema' ⟨⟩
        exact ih hbelow
      · cases hn
    intro n v hwithin
    cases hwithin with
    | here hmem => exact (hentry n v hmem).1
    | inner hmem hin => exact (hentry _ _ hmem).2 _ rfl hin

/-! ## Depth -/

theorem depth_le_of_mem {es : List (Value × Value)} {e : Value × Value} (h : e ∈ es) :
    depth e.2 ≤ depthEntries es := by
  induction es with
  | nil => cases h
  | cons e' es ih =>
    rcases List.mem_cons.1 h with rfl | h
    · exact Nat.le_max_left _ _
    · exact (ih h).trans (Nat.le_max_right _ _)

theorem depthEntries_lt_of_get? {es properties : List (Value × Value)} {key : String}
    (h : Value.get? es key = some (.map properties)) :
    depthEntries properties < depthEntries es := by
  have hle := depth_le_of_mem (Value.mem_of_get? h)
  simp only [depth] at hle
  omega

/-- The properties below a schema are no deeper than it is. -/
theorem depthEntries_nestedProperties_le (schema : List (Value × Value)) :
    depthEntries (nestedProperties schema) ≤ depthEntries schema := by
  unfold nestedProperties
  split
  · rename_i hget
    exact (depthEntries_lt_of_get? hget).le
  · split
    · rename_i hitems
      split
      · rename_i hget
        exact ((depthEntries_lt_of_get? hget).trans (depthEntries_lt_of_get? hitems)).le
      · exact Nat.zero_le _
    · exact Nat.zero_le _

/-! ## Graphs that grow -/

/-- A graph has the entries and definitions of another, for all keys that are texts. -/
structure Extends (g g' : Graph) : Prop where
  contains : ∀ k, g.contains (.str k) = true → g'.contains (.str k) = true
  definitions : ∀ k, ∀ d ∈ (g.get? (.str k)).getD [], d ∈ (g'.get? (.str k)).getD []

theorem Extends.refl (g : Graph) : g.Extends g :=
  ⟨fun _ h => h, fun _ _ h => h⟩

theorem Extends.trans {g g' g'' : Graph} (h : g.Extends g') (h' : g'.Extends g'') : g.Extends g'' :=
  ⟨fun k hk => h'.contains k (h.contains k hk),
    fun k d hd => h'.definitions k d (h.definitions k d hd)⟩

@[simp]
theorem find?_update (s k : String) (f : List Definition → List Definition)
    (es : List (Value × List Definition)) :
    find? (.str k) (update (.str s) f es) =
      if k = s then some (f ((find? (.str s) es).getD [])) else find? (.str k) es := by
  induction es with
  | nil =>
    by_cases hk : k = s
    · simp [update, find?, hk]
    · have hne : ¬ s = k := fun h => hk h.symm
      simp [update, find?, hk, hne]
  | cons e rest ih =>
    rcases e with ⟨key, ds⟩
    by_cases hs : Value.same key (.str s) = true
    · obtain rfl := Value.same_str_right.1 hs
      by_cases hk : k = s
      · simp [update, find?, hk]
      · have hne : ¬ s = k := fun h => hk h.symm
        simp [update, find?, hk, hne]
    · simp only [update, find?, hs, Bool.false_eq_true, if_false, ih]
      by_cases hkey : Value.same key (.str k) = true
      · have hk : k ≠ s := by
          rintro rfl
          exact hs hkey
        simp [hkey, hk]
      · simp [hkey]

theorem mem_addDefinition {d : Definition} {ds : List Definition}
    (hchildren : ∀ c ∈ d.children, ∃ s, c = .str s) : d ∈ addDefinition d ds := by
  unfold addDefinition
  split
  · rename_i hany
    rcases List.any_eq_true.1 hany with ⟨d', hd', hsame⟩
    -- An equal definition with texts for children is the same one.
    rcases Bool.and_eq_true_iff.1 hsame with ⟨htype, hlist⟩
    have htypes : d.type = d'.type := of_decide_eq_true htype
    have hlists : d.children = d'.children :=
      (Value.sameList_iff_of_isName fun c hc => Or.inr (hchildren c hc)).1 hlist
    have heq : d = d' := by
      cases d
      cases d'
      simp_all
    rwa [heq]
  · simp

theorem subset_addDefinition (d : Definition) (ds : List Definition) : ds ⊆ addDefinition d ds := by
  unfold addDefinition
  split
  · exact List.Subset.refl ds
  · exact List.subset_append_left ds [d]

theorem addDefinition_subset (d : Definition) (ds : List Definition) :
    addDefinition d ds ⊆ d :: ds := by
  unfold addDefinition
  split
  · exact List.subset_cons_self d ds
  · intro d' hd'
    simpa [or_comm] using hd'

/-- Adding definitions keeps those that are there, brings in the new ones, and no others. -/
theorem foldl_addDefinition {ds : List Definition}
    (hchildren : ∀ d ∈ ds, ∀ c ∈ d.children, ∃ s, c = .str s) (old : List Definition) :
    old ⊆ ds.foldl (fun acc d => addDefinition d acc) old ∧
      ds ⊆ ds.foldl (fun acc d => addDefinition d acc) old ∧
      ds.foldl (fun acc d => addDefinition d acc) old ⊆ ds ++ old := by
  induction ds generalizing old with
  | nil => simp
  | cons d ds ih =>
    rcases ih (fun d' hd' => hchildren d' (List.mem_cons_of_mem _ hd')) (addDefinition d old) with
      ⟨hold, hnew, hno⟩
    refine ⟨List.Subset.trans (subset_addDefinition d old) hold, ?_, ?_⟩
    · intro d' hd'
      rcases List.mem_cons.1 hd' with rfl | hd'
      · exact hold (mem_addDefinition (hchildren d' List.mem_cons_self))
      · exact hnew hd'
    · intro d' hd'
      rcases List.mem_append.1 (hno hd') with hmem | hmem
      · exact List.mem_append_left _ (List.mem_cons_of_mem _ hmem)
      · rcases List.mem_cons.1 (addDefinition_subset d old hmem) with rfl | hmem
        · exact List.mem_append_left _ List.mem_cons_self
        · exact List.mem_append_right _ hmem

/-! ## Entering properties -/

/-- The graph has the name of a property, with a definition for each type that its schema declares,
whose children are the names of the properties below. -/
structure Knows (g : Graph) (name : String) (schema : List (Value × Value)) : Prop where
  contains : g.contains (.str name) = true
  definitions : ∀ t ∈ declaredTypes schema, ∃ type, SchemaType.parse t = .ok type ∧
    ⟨type, (nestedProperties schema).map (·.1)⟩ ∈ (g.get? (.str name)).getD []

theorem Knows.mono {g g' : Graph} {name : String} {schema : List (Value × Value)}
    (h : g.Knows name schema) (hext : g.Extends g') : g'.Knows name schema := by
  refine ⟨hext.contains name h.contains, ?_⟩
  intro t ht
  rcases h.definitions t ht with ⟨type, hparse, hmem⟩
  exact ⟨type, hparse, hext.definitions name _ hmem⟩

/-- The definitions of a property, one for each type. -/
theorem mapM_definitions {types children : List Value} {ds : List Definition}
    (h : (types.mapM fun t => do
      let type ← SchemaType.parse t
      return Definition.mk type children) = .ok ds) :
    (∀ d ∈ ds, d.children = children) ∧
      ∀ t ∈ types, ∃ type, SchemaType.parse t = .ok type ∧ ⟨type, children⟩ ∈ ds := by
  induction types generalizing ds with
  | nil =>
    cases h
    simp
  | cons t types ih =>
    rw [List.mapM_cons] at h
    rcases bind_eq_ok.1 h with ⟨d, hd, hrest⟩
    rcases bind_eq_ok.1 hd with ⟨type, hparse, hmk⟩
    rcases bind_eq_ok.1 hrest with ⟨more, hmore, hlast⟩
    cases hmk
    cases hlast
    rcases ih hmore with ⟨hchildren, htypes⟩
    constructor
    · simpa using hchildren
    · intro t' ht'
      rcases List.mem_cons.1 ht' with rfl | ht'
      · exact ⟨type, hparse, List.mem_cons_self⟩
      · rcases htypes t' ht' with ⟨type', hparse', hmem⟩
        exact ⟨type', hparse', List.mem_cons_of_mem _ hmem⟩

theorem textual_update {s : String} {f : List Definition → List Definition} {g : Graph}
    (hg : g.Textual)
    (hf : ∀ ds, (∀ d ∈ ds, ∀ c ∈ d.children, ∃ t, c = .str t) →
      ∀ d ∈ f ds, ∀ c ∈ d.children, ∃ t, c = .str t) :
    (Graph.mk (update (.str s) f g.entries)).Textual := by
  rcases g with ⟨es⟩
  have hentries : ∀ e ∈ update (.str s) f es, (∃ t, e.1 = .str t) ∧
      ∀ d ∈ e.2, ∀ c ∈ d.children, ∃ t, c = .str t := by
    have hold : ∀ e ∈ es, (∃ t, e.1 = .str t) ∧ ∀ d ∈ e.2, ∀ c ∈ d.children, ∃ t, c = .str t :=
      fun e he => ⟨hg.keys e he, hg.children e he⟩
    clear hg
    induction es with
    | nil =>
      intro e he
      rcases List.mem_singleton.1 he with rfl
      exact ⟨⟨s, rfl⟩, hf [] (by simp)⟩
    | cons e' rest ih =>
      have hfirst := hold e' List.mem_cons_self
      have hrest : ∀ e ∈ rest, _ := fun e he => hold e (List.mem_cons_of_mem _ he)
      intro e he
      unfold update at he
      split at he
      · rcases List.mem_cons.1 he with rfl | he
        · exact ⟨hfirst.1, hf _ hfirst.2⟩
        · exact hrest e he
      · rcases List.mem_cons.1 he with rfl | he
        · exact hfirst
        · exact ih hrest e he
  exact ⟨fun e he => (hentries e he).1, fun e he => (hentries e he).2⟩

/-- Entering a property adds its definitions to the graph. -/
theorem enter_spec {g g' : Graph} {name : String} {schema : List (Value × Value)}
    (hnames : ∀ c ∈ (nestedProperties schema).map (·.1), ∃ s, c = .str s)
    (h : enter (.str name) (declaredTypes schema)
      ((nestedProperties schema).map (·.1)) g = .ok g') :
    g.Extends g' ∧ g'.Knows name schema ∧ (g.Textual → g'.Textual) := by
  rcases bind_eq_ok.1 h with ⟨ds, hds, hlast⟩
  cases hlast
  rcases mapM_definitions hds with ⟨hchildren, htypes⟩
  have htexts : ∀ d ∈ ds, ∀ c ∈ d.children, ∃ s, c = .str s := by
    intro d hd c hc
    rw [hchildren d hd] at hc
    exact hnames c hc
  have hfold := foldl_addDefinition htexts
  refine ⟨⟨?_, ?_⟩, ⟨?_, ?_⟩, ?_⟩
  · intro k hk
    simp only [contains, get?, find?_update]
    split
    · rfl
    · exact hk
  · intro k d hd
    simp only [get?, find?_update]
    split
    · rename_i hk
      subst hk
      exact (hfold _).1 hd
    · exact hd
  · simp [contains, get?, find?_update]
  · intro t ht
    rcases htypes t ht with ⟨type, hparse, hmem⟩
    refine ⟨type, hparse, ?_⟩
    simp only [get?, find?_update, if_true]
    exact (hfold _).2.1 hmem
  · intro hg
    refine textual_update hg ?_
    intro old hold d hd
    rcases List.mem_append.1 ((hfold old).2.2 hd) with hmem | hmem
    · exact htexts d hmem
    · exact hold d hmem

/-- Entering properties adds the definitions of all of them and of those below. -/
theorem enterProperties_spec {fuel : Nat} {properties : List (Value × Value)} {g g' : Graph}
    (hregular : Regular properties) (hfuel : depthEntries properties < fuel)
    (h : enterProperties fuel properties g = .ok g') :
    g.Extends g' ∧
      (∀ name schema, Within properties (.str name) (.map schema) → g'.Knows name schema) ∧
      (g.Textual → g'.Textual) := by
  -- On the fuel, for the properties below, and on the list of properties. The graph only grows, so
  -- that what is known after one property is known in the end.
  induction fuel generalizing properties g g' with
  | zero => exact absurd hfuel (Nat.not_lt_zero _)
  | succ fuel ih =>
    rw [enterProperties] at h
    induction properties generalizing g with
    | nil =>
      cases h
      refine ⟨Extends.refl _, ?_, fun hg => hg⟩
      intro name schema hwithin
      cases hwithin with
      | here hmem => cases hmem
      | inner hmem _ => cases hmem
    | cons e rest ihrest =>
      rcases e with ⟨n, v⟩
      rcases hregular (.here List.mem_cons_self) with ⟨name, schema, rfl, rfl, -⟩
      rw [List.foldlM_cons] at h
      rcases bind_eq_ok.1 h with ⟨g₂, hfirst, hrest⟩
      rcases bind_eq_ok.1 hfirst with ⟨g₁, henter, hbelow⟩
      rw [depthEntries, depth] at hfuel
      have hdepth := Nat.max_lt.1 hfuel
      have hinner := hregular.below List.mem_cons_self
      have hnested := depthEntries_nestedProperties_le schema
      rcases enter_spec hinner.names henter with ⟨hext₁, hknows₁, htext₁⟩
      rcases ih hinner (by omega) hbelow with ⟨hext₂, hknows₂, htext₂⟩
      rcases ihrest (hregular.of_subset (List.subset_cons_self _ _)) hdepth.2 hrest with
        ⟨hext₃, hknows₃, htext₃⟩
      refine ⟨(hext₁.trans hext₂).trans hext₃, ?_, fun hg => htext₃ (htext₂ (htext₁ hg))⟩
      intro name' schema' hwithin
      cases hwithin with
      | here hmem =>
        rcases List.mem_cons.1 hmem with heq | hmem
        · cases heq
          exact (hknows₁.mono hext₂).mono hext₃
        · exact hknows₃ name' schema' (.here hmem)
      | inner hmem hbelow =>
        rcases List.mem_cons.1 hmem with heq | hmem
        · cases heq
          exact (hknows₂ name' schema' hbelow).mono hext₃
        · exact hknows₃ name' schema' (.inner hmem hbelow)

/-- The graph of a schema knows all its properties, and its keys and children are texts. -/
theorem ofJsonSchema_spec {members : List (Value × Value)} {g : Graph}
    (hregular : Regular (nestedProperties members)) (h : ofJsonSchema (.map members) = .ok g) :
    g.Textual ∧ ∀ name schema, Within (nestedProperties members) (.str name) (.map schema) →
      g.Knows name schema := by
  have hempty : Textual ⟨[]⟩ := ⟨by simp, by simp⟩
  have hdepth : depthEntries (nestedProperties members) < depth (.map members) + 1 := by
    have hle := depthEntries_nestedProperties_le members
    simp only [depth]
    omega
  rcases enterProperties_spec hregular hdepth h with ⟨-, hknows, htext⟩
  exact ⟨htext hempty, hknows⟩

/-! ## Documents -/

def schemaAt? (schema : List (Value × Value)) : List String → Option (List (Value × Value))
  | [] => some schema
  | k :: rest =>
    match Value.get? (nestedProperties schema) k with
    | some (.map subschema) => schemaAt? subschema rest
    | _ => none

/-- A document follows a schema: the key of every pair is a scalar whose text is a property of the
schema of the nearest enclosing pair, and every scalar that is a pair's value is of one of the types
of its property. -/
structure FollowsSchema (schema : List (Value × Value)) (d : Document) : Prop where
  keys : ∀ p ∈ Tree.placesOf d.root, p.node.isPair = true → ∃ k ∈ p.node.keyText?,
    ∃ outer ∈ schemaAt? schema p.enclosingKeys.reverse,
      (Value.get? (nestedProperties outer) k).isSome = true
  values : ∀ p ∈ Tree.placesOf d.root, ∀ v ∈ p.scalarValue?,
    ∃ own ∈ schemaAt? schema p.keyPath, ∃ t ∈ declaredTypes own,
      ∃ type ∈ (SchemaType.parse t).toOption, type.accepts v = true

instance (schema : List (Value × Value)) (d : Document) : Decidable (FollowsSchema schema d) :=
  decidable_of_iff
    ((∀ p ∈ Tree.placesOf d.root, p.node.isPair = true → ∃ k ∈ p.node.keyText?,
        ∃ outer ∈ schemaAt? schema p.enclosingKeys.reverse,
          (Value.get? (nestedProperties outer) k).isSome = true) ∧
      ∀ p ∈ Tree.placesOf d.root, ∀ v ∈ p.scalarValue?,
        ∃ own ∈ schemaAt? schema p.keyPath, ∃ t ∈ declaredTypes own,
          ∃ type ∈ (SchemaType.parse t).toOption, type.accepts v = true)
    ⟨fun h => ⟨h.1, h.2⟩, fun h => ⟨h.keys, h.values⟩⟩

theorem schemaAt?_append (schema : List (Value × Value)) (path : List String) (k : String) :
    schemaAt? schema (path ++ [k]) = (schemaAt? schema path).bind fun outer =>
      schemaAt? outer [k] := by
  induction path generalizing schema with
  | nil => rfl
  | cons k' path ih =>
    simp only [List.cons_append, schemaAt?]
    cases Value.get? (nestedProperties schema) k' with
    | none => rfl
    | some v =>
      cases v with
      | map subschema => simpa [schemaAt?] using ih subschema
      | _ => rfl

section Paths

variable {g : Graph} {schema own : List (Value × Value)} {path : List String}

theorem exists_of_schemaAt?_cons {k : String} {rest : List String}
    (h : schemaAt? schema (k :: rest) = some own) :
    ∃ subschema, (Value.str k, Value.map subschema) ∈ nestedProperties schema ∧
      schemaAt? subschema rest = some own := by
  rw [schemaAt?] at h
  split at h
  · rename_i subschema hget
    exact ⟨subschema, Value.mem_of_get? hget, h⟩
  · cases h

theorem Regular.at (hregular : Regular (nestedProperties schema))
    (h : schemaAt? schema path = some own) : Regular (nestedProperties own) := by
  induction path generalizing schema with
  | nil =>
    cases h
    exact hregular
  | cons k rest ih =>
    rcases exists_of_schemaAt?_cons h with ⟨subschema, hmem, hrest⟩
    exact ih (hregular.below hmem) hrest

/-- A property whose name is looked up in the schema at a path continues the path. -/
theorem Regular.extend {k : String} (hregular : Regular (nestedProperties schema))
    (h : schemaAt? schema path = some own)
    (hk : (Value.get? (nestedProperties own) k).isSome = true) :
    ∃ subschema, schemaAt? schema (path ++ [k]) = some subschema := by
  rcases Option.isSome_iff_exists.1 hk with ⟨v, hv⟩
  rcases hregular.at h (.here (Value.mem_of_get? hv)) with ⟨-, subschema, -, rfl, -⟩
  exact ⟨subschema, by simp [schemaAt?_append, h, schemaAt?, hv]⟩

/-- The last name of a path is that of the property at its end. -/
theorem within_of_schemaAt? {k : String} (h : schemaAt? schema (path ++ [k]) = some own) :
    Within (nestedProperties schema) (.str k) (.map own) := by
  induction path generalizing schema with
  | nil =>
    rcases exists_of_schemaAt?_cons h with ⟨subschema, hmem, hrest⟩
    cases hrest
    exact .here hmem
  | cons k' rest ih =>
    rcases exists_of_schemaAt?_cons h with ⟨subschema, hmem, hrest⟩
    exact .inner hmem (ih hrest)

/-- A known property has a definition, and its children are the properties below it. -/
theorem Knows.exists_definition {k : String} (h : g.Knows k own) (htypes : declaredTypes own ≠ []) :
    ∃ d ∈ (g.get? (.str k)).getD [], d.children = (nestedProperties own).map (·.1) := by
  rcases List.exists_mem_of_ne_nil _ htypes with ⟨t, ht⟩
  rcases h.definitions t ht with ⟨type, -, hmem⟩
  exact ⟨_, hmem, rfl⟩

/-- A path of properties is one of the graph. -/
theorem linked_of_schemaAt? (hg : g.Textual) (hregular : Regular (nestedProperties schema))
    (hknows : ∀ k own, Within (nestedProperties schema) (.str k) (.map own) → g.Knows k own)
    (h : schemaAt? schema path = some own) : g.Linked path := by
  induction path generalizing schema with
  | nil => exact List.IsChain.nil
  | cons k rest ih =>
    rcases exists_of_schemaAt?_cons h with ⟨subschema, hmem, hrest⟩
    have hlinked := ih (hregular.below hmem) (fun k' own' hin => hknows k' own' (.inner hmem hin))
        hrest
    cases rest with
    | nil => exact List.IsChain.singleton k
    | cons next rest =>
      refine List.IsChain.cons_cons ?_ hlinked
      -- The next name is among those below the property, and so a child in its definition.
      rcases exists_of_schemaAt?_cons hrest with ⟨deeper, hnext, -⟩
      have hwithin : Within (nestedProperties schema) (.str k) (.map subschema) := .here hmem
      rcases (hknows k subschema hwithin).exists_definition
        (proper_iff.1 (hregular hwithin)) with ⟨d, hd, hchildren⟩
      refine hg.declares_iff.2 (List.mem_flatMap.2 ⟨d, hd, ?_⟩)
      rw [hchildren]
      exact List.mem_map.2 ⟨_, hnext, rfl⟩

/-- The graph allows the path of a property. -/
theorem allows_of_schemaAt? {k : String} (hg : g.Textual)
    (hregular : Regular (nestedProperties schema))
    (hknows : ∀ k own, Within (nestedProperties schema) (.str k) (.map own) → g.Knows k own)
    (h : schemaAt? schema (path ++ [k]) = some own) : g.Allows (path ++ [k]) := by
  have hwithin := within_of_schemaAt? h
  rcases (hknows k own hwithin).exists_definition (proper_iff.1 (hregular hwithin)) with
    ⟨d, hd, -⟩
  have hmem : d ∈ g.definitionsAt (path ++ [k]) := by simpa [definitionsAt] using hd
  exact ⟨linked_of_schemaAt? hg hregular hknows h, List.ne_nil_of_mem hmem⟩

end Paths

section Verdicts

variable {g : Graph} {members : List (Value × Value)} {d : Document} {p : Place}

/-- The path of a pair in a document that follows a schema is one of properties. -/
theorem FollowsSchema.schemaAt?_of_key (h : FollowsSchema members d)
    (hregular : Regular (nestedProperties members)) (hp : p ∈ Tree.placesOf d.root) {k : String}
    (hk : k ∈ p.node.keyText?) :
    ∃ own, schemaAt? members (p.enclosingKeys.reverse ++ [k]) = some own := by
  rcases h.keys p hp (keyText?_eq_some hk) with ⟨k', hk', outer, houter, hget⟩
  obtain rfl := Option.mem_unique hk hk'
  exact hregular.extend houter hget

theorem Inspects.keyPath_of_value (h : g.Inspects p) {v : Value} (hv : v ∈ p.scalarValue?) :
    ∃ path k, p.keyPath = path ++ [k] := by
  rcases h.enclosingKeys_of_value (Option.isSome_iff_exists.2 ⟨v, hv⟩) with ⟨hnode, k, rest, hkeys⟩
  exact ⟨rest.reverse, k, by simp [Place.keyPath, hkeys, keyText?_eq_none hnode]⟩

/-- There is nothing wrong at any place of a document that follows a schema. -/
theorem FollowsSchema.verdict?_eq_none (h : FollowsSchema members d) (hg : g.Textual)
    (hregular : Regular (nestedProperties members))
    (hknows : ∀ k own, Within (nestedProperties members) (.str k) (.map own) → g.Knows k own)
    (hp : p ∈ Tree.placesOf d.root) : g.verdict? p = none := by
  have hrejects : ¬ g.Rejects p := by
    rintro ⟨-, k, hk, hno⟩
    rcases h.schemaAt?_of_key hregular hp hk with ⟨own, hat⟩
    rw [(hknows k own (within_of_schemaAt? hat)).contains] at hno
    cases hno
  have hmisplaces : ¬ g.Misplaces p := by
    rintro ⟨⟨hinspects, ⟨k, hk, -⟩ | hvalue⟩, hno⟩
    · rcases h.schemaAt?_of_key hregular hp hk with ⟨own, hat⟩
      rw [Option.mem_def] at hk
      rw [Place.keyPath, hk] at hno
      exact hno (allows_of_schemaAt? hg hregular hknows hat)
    · rcases Option.isSome_iff_exists.1 hvalue with ⟨v, hv⟩
      rcases h.values p hp v hv with ⟨own, hat, -⟩
      rcases hinspects.keyPath_of_value hv with ⟨path, k, hpath⟩
      rw [hpath] at hat hno
      exact hno (allows_of_schemaAt? hg hregular hknows hat)
  have hmistypes : ¬ g.Mistypes p := by
    rintro ⟨hjudges, -, v, hv, hno⟩
    rcases h.values p hp v hv with ⟨own, hat, t, ht, type, hparse, haccepts⟩
    rcases hjudges.1.keyPath_of_value hv with ⟨path, k, hpath⟩
    rw [hpath] at hat hno
    -- The definition that stands for the accepting type is one of the key's.
    rcases (hknows k own (within_of_schemaAt? hat)).definitions t ht with ⟨type', hparse', hmem⟩
    obtain rfl : type = type' := by simpa [hparse', Except.toOption] using hparse.symm
    have hfalse := hno _ (by simpa [definitionsAt] using hmem)
    rw [Definition.accepts, haccepts] at hfalse
    cases hfalse
  simp [verdict?, hrejects, hmisplaces, hmistypes]

end Verdicts

/-- Validating a document that follows a JSON Schema against the graph of that schema reports
nothing. -/
theorem validate_ofJsonSchema {members : List (Value × Value)} {g : Graph} {d : Document}
    (hregular : Regular (nestedProperties members)) (hgraph : ofJsonSchema (.map members) = .ok g)
    (hd : FollowsSchema members d) : ∃ r, g.validate d = .ok r ∧ r.findings = [] := by
  rcases ofJsonSchema_spec hregular hgraph with ⟨hg, hknows⟩
  refine ⟨_, validate_eq_foldl hg d, ?_⟩
  rw [foldl_reportAt _ (pairwise_id_places d.root), List.filterMap_eq_nil_iff]
  intro p hp
  rw [finding?, hd.verdict?_eq_none hg hregular hknows hp]
  rfl

/-- The schema of a service: a name for it and for each of its ports, which may be numbers there. -/
def serviceSchema : List (Value × Value) :=
  [(.str "properties", .map [(.str "service", .map [(.str "properties", .map
    [(.str "name", .map [(.str "type", .str "string")]),
     (.str "ports", .map [(.str "items", .map [(.str "properties", .map
        [(.str "name", .map [(.str "type", .list [.str "string", .str "integer"])]),
         (.str "port", .map [(.str "type", .str "integer")])])])])])])])]

/-- `service: {name: web, ports: [{name: 1, port: 80}]}`. -/
def serviceDocument : Document :=
  let i : Info := ⟨none, none, none, none, none⟩
  let number (n : Nat) : Tree := .scalar i (.int n) (toString n) none
  Document.ofTree (some (.map i [.pair (some (wordTree "service")) (some (.map i
    [.pair (some (wordTree "name")) (some (wordTree "web")),
     .pair (some (wordTree "ports")) (some (.sequence i [.map i
      [.pair (some (wordTree "name")) (some (number 1)),
       .pair (some (wordTree "port")) (some (number 80))]]))]))]))

theorem validate_ofJsonSchema_service :
    Regular (nestedProperties serviceSchema) ∧ FollowsSchema serviceSchema serviceDocument ∧
      ∃ g, ofJsonSchema (.map serviceSchema) = .ok g ∧
        ∃ r, g.validate serviceDocument = .ok r ∧ r.findings = [] := by
  have hisRegular : isRegular 3 (nestedProperties serviceSchema) = true := by decide +kernel
  have hregular := regular_of_isRegular hisRegular
  have hfollows : FollowsSchema serviceSchema serviceDocument := by decide +kernel
  have hisOk : (ofJsonSchema (.map serviceSchema)).isOk = true := by decide +kernel
  cases hg : ofJsonSchema (.map serviceSchema) with
  | ok g => exact ⟨hregular, hfollows, g, rfl, validate_ofJsonSchema hregular hg hfollows⟩
  | error f =>
      rw [hg] at hisOk
      cases hisOk

end Graph
end YamlServer
