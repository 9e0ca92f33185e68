import YamlServer.Proofs.Schema.Path

/-!
# Schemas around a pair

A pair has no range, and is looked up by the start of its key. The way there goes to the map around
the pair. It should end there, since no value of the map holds a key; but ranges include their ends,
and a block collection ends where the next key starts. Then the way goes on into that value.

* `Document.schemasOf_pair`: the matches of every pair outside of keys.
-/

namespace YamlServer

/-! ## A schema that follows every way -/

namespace Schema

open YamlServer.Tree

/-- A schema that asks for nothing, with a part for everything down to some depth. -/
def openSchema : Nat → Value
  | 0 => .map []
  | n + 1 => .map [(.str "additionalProperties", openSchema n), (.str "items", openSchema n)]

theorem exists_openSchema (n : Nat) : ∃ members, openSchema n = .map members := by
  cases n with
  | zero => exact ⟨_, rfl⟩
  | succ n => exact ⟨_, rfl⟩

@[simp]
theorem partOf?_openSchema (n : Nat) (slot : Slot) :
    partOf? (openSchema (n + 1)) slot = some (openSchema n) := by
  cases slot with
  | member key =>
    cases key with
    | none => simp [openSchema, partOf?, Value.get?, Value.lookup?]
    | some key => simp [openSchema, partOf?, propertiesOf, Value.get?, Value.lookup?, Value.same]
  | item => simp [openSchema, partOf?, Value.get?, Value.lookup?]

theorem partAlong_openSchema {n : Nat} {cs : List Content} (h : cs.length ≤ n) :
    partAlong (openSchema n) cs = some (openSchema (n - cs.length)) := by
  induction cs generalizing n with
  | nil => rfl
  | cons c cs ih =>
    obtain ⟨n, rfl⟩ : ∃ m, n = m + 1 := ⟨n - 1, by rw [List.length_cons] at h; omega⟩
    rw [partAlong, partOf?_openSchema, Option.bind_some, List.length_cons,
      Nat.add_sub_add_right]
    exact ih (Nat.le_of_succ_le_succ h)

theorem built_openSchema (n : Nat) : Built .twenty [] (openSchema n) := by
  induction n with
  | zero => exact .map [] (by simp) (by simp [applied])
  | succ n ih =>
    refine .map _ (by simp [keywords]) ?_
    rcases exists_openSchema n with ⟨members, hmembers⟩
    rw [hmembers] at ih ⊢
    simpa [applied, Schema.schemasOf, Value.plainText] using ih

@[simp]
theorem isWellFormed_openSchema (n : Nat) : Draft.isWellFormed .twenty (openSchema n) = true := by
  induction n with
  | zero => rfl
  | succ n ih =>
    have hadditional : Draft.form? .twenty "additionalProperties" = some .schema := rfl
    have hitems : Draft.form? .twenty "items" = some .schema := rfl
    have hpaired : ∀ members, Draft.boundsPaired .twenty members = true := fun _ => rfl
    simp only [openSchema, Draft.isWellFormed, Draft.membersFit, Value.plainText, hadditional,
      hitems, hpaired, ih, Bool.and_self]

theorem usable_openSchema (n : Nat) : Usable .twenty (openSchema n) :=
  ⟨⟨[], by decide, built_openSchema n⟩, isWellFormed_openSchema n,
    ofSchema_of_built (built_openSchema n)⟩

end Schema

/-- With such a schema every offset of a document has its matches. -/
theorem Document.exists_schemasAt_openSchema (d : Document) (n : Nat) (offset : Int) :
    ∃ ms, d.schemasAt (Schema.openSchema n) offset = .ok ms :=
  have husable := Schema.usable_openSchema n
  d.exists_matchesAt husable.own husable.formed husable.answers offset

/-! ## The values around a key -/

namespace Tree

theorem exists_split_of_mem_numberFrom {lo j : Nat} {t : Tree} {ts : List Tree}
    (h : (j, t) ∈ numberFrom lo ts) :
    ∃ before after, ts = before ++ t :: after ∧ j = lo + sizeList before := by
  induction ts generalizing lo with
  | nil => cases h
  | cons u ts ih =>
    rcases List.mem_cons.1 h with heq | h
    · cases heq
      exact ⟨[], ts, rfl, rfl⟩
    · rcases ih h with ⟨before, after, rfl, hj⟩
      refine ⟨u :: before, after, rfl, ?_⟩
      rw [hj, sizeList, Nat.add_assoc]

theorem size_le_of_mem_numberFrom {lo j : Nat} {t : Tree} {ts : List Tree}
    (h : (j, t) ∈ numberFrom lo ts) : j + t.size ≤ lo + sizeList ts := by
  rcases exists_split_of_mem_numberFrom h with ⟨before, after, rfl, rfl⟩
  rw [sizeList_append, sizeList]
  omega

theorem Nested.contains_iff {t : Tree} (h : t.Nested) {offset : Nat} :
    t.contains (Int.ofNat offset) = true ↔ t.extent.1 ≤ offset ∧ offset ≤ t.extent.2 :=
  Tree.contains_iff h.range?_eq

theorem entry_eq {q : Tree × Tree} {key : Option Tree} {value : Tree}
    (h : entry q = .pair key (some value)) : key = some q.1 ∧ value = q.2 := by
  cases h
  exact ⟨rfl, rfl⟩

/-- A value of a map belongs to a pair before a given one, to this one, or to one after it. -/
theorem content_position {i j : Nat} {info : Info} {earlier later : List (Tree × Tree)}
    {q : Tree × Tree} (hj : j = i + 1 + sizeList (earlier.map entry)) {c : Content}
    (hc : c ∈ (Tree.map info ((earlier ++ q :: later).map entry)).contents i) :
    (c.id < j ∧ ∃ q' ∈ earlier, c.node = q'.2) ∨ (c.id = j + 1 + q.1.size ∧ c.node = q.2) ∨
      ∃ q' ∈ later, c.node = q'.2 := by
  rcases content_cases hc with ⟨info', entries, i', key, heq, he, -, hid⟩ | ⟨_, _, heq, -⟩
  · cases heq
    rw [List.map_append, numberFrom_append, ← hj, List.map_cons] at he
    rcases List.mem_append.1 he with he | he
    -- A pair before `q` is numbered below it together with its value.
    · rcases List.mem_map.1 (mem_of_mem_numberFrom he) with ⟨q', hq', hpair⟩
      rcases entry_eq hpair with ⟨rfl, hnode⟩
      have hsize := size_le_of_mem_numberFrom he
      rw [size, sizeOption, sizeOption] at hsize
      rw [sizeOption] at hid
      have hpos := size_pos c.node
      exact Or.inl ⟨by omega, q', hq', hnode⟩
    · rcases List.mem_cons.1 he with heq | he
      · obtain ⟨rfl, hpair⟩ := Prod.mk.inj heq
        rcases entry_eq hpair.symm with ⟨rfl, hnode⟩
        exact Or.inr (Or.inl ⟨hid, hnode⟩)
      · rcases List.mem_map.1 (mem_of_mem_numberFrom he) with ⟨q', hq', hpair⟩
        exact Or.inr (Or.inr ⟨q', hq', (entry_eq hpair).2⟩)
  · cases heq

section

variable {root : Tree} {i j : Nat} {above : List Link} {info : Info} {entries : List Tree}
  {key value : Tree}

/-- A pair of a map, between the pairs before it and those after it. -/
theorem exists_pairs_of_entry (hnested : root.Nested)
    (hm : ⟨i, above, .map info entries⟩ ∈ root.places)
    (hentry : (j, .pair (some key) (some value)) ∈ numberFrom (i + 1) entries) :
    ∃ earlier later lo hi, entries = (earlier ++ (key, value) :: later).map entry ∧
      j = i + 1 + sizeList (earlier.map entry) ∧
      InOrder extent lo hi (sides (earlier ++ (key, value) :: later)) ∧
      ∀ t ∈ sides (earlier ++ (key, value) :: later), t.Nested := by
  have hmap : (Tree.map info entries).Nested := by
    cases hnested.settled hm with
    | ranged _ h _ _ => exact h
  cases hmap with
  | map _ pairs lo hi _ _ hpairs hall =>
    rcases exists_split_of_mem_numberFrom hentry with ⟨before, after, hsplit, hj⟩
    rcases List.map_eq_append_iff.1 hsplit with ⟨earlier, others, rfl, rfl, hothers⟩
    rcases List.map_eq_cons_iff.1 hothers with ⟨q, later, rfl, hq, rfl⟩
    rcases entry_eq hq with ⟨hkey, rfl⟩
    cases hkey
    exact ⟨earlier, later, lo, hi, rfl, hj, hpairs, hall⟩

theorem parentOf?_value (hm : ⟨i, above, .map info entries⟩ ∈ root.places)
    (hentry : (j, .pair (some key) (some value)) ∈ numberFrom (i + 1) entries) :
    parentOf? root.visits (j + 1 + key.size) = some j := by
  have hbranch : ⟨.entry, j, .pair (some key) (some value)⟩ ∈ branches i (.map info entries) :=
    List.mem_map.2 ⟨_, hentry, rfl⟩
  have hside : ⟨.value, j + 1 + key.size, value⟩ ∈ branches j (.pair (some key) (some value)) := by
    simp [branches, sizeOption]
  exact parentOf?_place (place_below (place_below hm hbranch) hside)

/-- A value of a map that holds the start of a key belongs to an earlier pair, and stops there; or
it is the value of this key, and the key is empty. -/
theorem touching_cases (hnested : root.Nested) (hspaced : root.Spaced)
    (hm : ⟨i, above, .map info entries⟩ ∈ root.places)
    (hentry : (j, .pair (some key) (some value)) ∈ numberFrom (i + 1) entries) {s e : Nat}
    (hrange : key.range? = some (s, e)) {c : Content} (hc : c ∈ (Tree.map info entries).contents i)
    (hheld : c.node.contains (Int.ofNat s) = true) :
    c.id < j ∧ c.node.stop? = some s ∨
      parentOf? root.visits c.id = some j ∧ c.node.start? = some s ∧ e = s := by
  have hparent := parentOf?_value hm hentry
  have hown : (⟨.member (Tree.pair (some key) (some value)).keyText?, j + 1 + key.size, value⟩ :
      Content) ∈ (Tree.map info entries).contents i := List.mem_filterMap.2 ⟨_, hentry, rfl⟩
  obtain ⟨rfl, rfl⟩ : key.extent.1 = s ∧ key.extent.2 = e := by
    rw [extent_of_range? hrange]
    exact ⟨rfl, rfl⟩
  rcases exists_pairs_of_entry hnested hm hentry with
    ⟨earlier, later, lo, hi, rfl, hj, hpairs, hall⟩
  have hpair : (key, value) ∈ earlier ++ (key, value) :: later := by simp
  have hkeys := List.pairwise_append.1 (pairwise_value_key hpairs)
  have hwidth := (hall key (mem_sides hpair).1).range.2.2
  have hvalue := hall value (mem_sides hpair).2
  have hbetween : key.extent.2 ≤ value.extent.1 := key_le_value hpairs hpair
  -- The value of the key stands after it, so it holds the start only if nothing is between.
  have htouches : value.contains (Int.ofNat key.extent.1) = true →
      value.start? = some key.extent.1 ∧ key.extent.2 = key.extent.1 := by
    intro hholds
    have hbounds := hvalue.contains_iff.1 hholds
    rw [hvalue.range.1]
    exact ⟨congrArg some (by omega), by omega⟩
  rcases content_position hj hc with ⟨hid, q, hq, hnode⟩ | ⟨hid, hnode⟩ | ⟨q, hq, hnode⟩
  · have hearlier := hall q.2 (mem_sides (List.mem_append_left _ hq)).2
    have hbefore : q.2.extent.2 ≤ key.extent.1 := hkeys.2.2 q hq _ List.mem_cons_self
    rw [hnode] at hheld ⊢
    have hbounds := hearlier.contains_iff.1 hheld
    refine Or.inl ⟨hid, ?_⟩
    rw [hearlier.range.2.1]
    exact congrArg some (by omega)
  · rw [hnode] at hheld ⊢
    rw [hid]
    exact Or.inr ⟨hparent, htouches hheld⟩
  · have hmem : q ∈ earlier ++ (key, value) :: later := by simp [hq]
    have hafter : value.extent.2 ≤ q.1.extent.1 := (List.pairwise_cons.1 hkeys.2.1).1 q hq
    have hbetween' := key_le_value hpairs hmem
    have hwidth' := (hall q.1 (mem_sides hmem).1).range.2.2
    have hbounds := (hall q.2 (mem_sides hmem).2).contains_iff.1 (hnode ▸ hheld)
    have hholds : value.contains (Int.ofNat key.extent.1) = true := by
      have hle := hvalue.range.2.2
      exact hvalue.contains_iff.2 ⟨by omega, by omega⟩
    -- Two values that hold one offset are the same.
    have hfirst := hspaced.find?_content hm hown hholds
    rw [hspaced.find?_content hm hc hheld] at hfirst
    cases hfirst
    exact Or.inr ⟨hparent, htouches hholds⟩

end

end Tree

/-! ## The matches of a pair -/

namespace Document

open Schema YamlServer.Tree

/-- The matches of the pair `p`, which hangs in `l.node` and has a key from `s` to `e`. -/
structure PairMatches (d : Document) (visits : List Visit) (l : Link) (p : Place) (s e : Nat) :
    Prop where
  /-- The path to the pair ends with the map around it. -/
  path : (rangedPath visits p.id).getLast? = some l.id
  /-- The matches are on this path, whoever judges them. They go on only into a value of the map
  that holds the start of the key. -/
  nodes : ∀ j schema ms, d.matchesOf j schema p.node = .ok ms →
    ∃ below, ms.map (·.node) <+: rangedPath visits p.id ++ below ∧
      ∀ i ∈ below, ∃ c ∈ l.node.contents l.id, c.node.contains (Int.ofNat s) = true ∧
        (i = c.id ∨ c.id ∈ ancestors visits i)
  /-- They end at the map, whatever the schema, if and only if there is no such value. -/
  ends_iff : (∀ schema ms, d.schemasOf schema p.node = .ok ms →
      ms.map (·.node) <+: rangedPath visits p.id) ↔
    ∀ c ∈ l.node.contents l.id, c.node.contains (Int.ofNat s) = false
  /-- It is the value of an earlier pair, and stops where the key starts; or the value of the pair
  itself, and starts there, the key being empty. -/
  touching : ∀ c ∈ l.node.contents l.id, c.node.contains (Int.ofNat s) = true →
    c.id < p.id ∧ c.node.stop? = some s ∨
      parentOf? visits c.id = some p.id ∧ c.node.start? = some s ∧ e = s

section

variable {d : Document} {root : Tree} {p : Place} {i s : Nat} {t : Tree} {cs more : List Content}

/-- What comes after a way to a node is a content of the node, or below one. -/
theorem exists_content_of_leads {above : List Link} (hp : ⟨i, above, t⟩ ∈ root.places)
    (h : Leads (Int.ofNat s) i t more) :
    ∀ j ∈ more.map (·.id), ∃ c ∈ t.contents i, c.node.contains (Int.ofNat s) = true ∧
      (j = c.id ∨ c.id ∈ ancestors root.visits j) := by
  intro j hj
  cases h with
  | stop _ => cases hj
  | @step _ _ c cs hfind hleads =>
    have hc := List.mem_of_find?_eq_some hfind
    refine ⟨c, hc, by simpa using List.find?_some hfind, ?_⟩
    rcases List.mem_cons.1 hj with rfl | hj
    · exact Or.inl rfl
    · obtain ⟨l, rest, hplace, -⟩ := place_content hp hc
      rcases List.mem_map.1 hj with ⟨c', hc', rfl⟩
      exact Or.inr (hleads.mem_ancestors hplace c.id List.mem_cons_self c' hc')

/-- Matches that follow a way, whatever the schema, end with the first part of it exactly if there
is no other part. -/
theorem ends_iff_of_follows {offset : Int}
    (h : ∀ j schema ms, d.matchesAt j schema offset = .ok ms → Follows schema 0 (cs ++ more) ms) :
    (∀ schema ms, d.schemasAt schema offset = .ok ms →
      ms.map (·.node) <+: 0 :: cs.map (·.id)) ↔ more = [] := by
  constructor
  · intro hends
    -- A schema that is open all the way down is matched on every node of the way.
    rcases d.exists_schemasAt_openSchema (cs ++ more).length offset with ⟨ms, hms⟩
    have hall : ms.map (·.node) = 0 :: (cs ++ more).map (·.id) := by
      refine (h drafts _ ms hms).nodes_eq fun k hk => ?_
      rcases exists_openSchema ((cs ++ more).length - ((cs ++ more).take k).length) with
        ⟨members, hmembers⟩
      refine ⟨members, ?_⟩
      rw [partAlong_openSchema (List.length_take_le' k _), hmembers]
    have hlength := (hends _ ms hms).length_le
    rw [hall, List.length_cons, List.length_cons, List.length_map, List.length_map,
      List.length_append] at hlength
    exact List.length_eq_zero_iff.1 (by omega)
  · rintro rfl schema ms hms
    have hnodes := (h drafts schema ms hms).nodes
    rwa [List.append_nil] at hnodes

theorem leads_nil_iff {offset : Int} (h : Leads offset i t more) :
    more = [] ↔ ∀ c ∈ t.contents i, c.node.contains offset = false := by
  cases h with
  | stop hfind => simpa using hfind
  | @step _ _ c cs hfind _ =>
    refine iff_of_false (List.cons_ne_nil c cs) fun hnone => ?_
    have hheld : c.node.contains offset = true := by simpa using List.find?_some hfind
    rw [hnone c (List.mem_of_find?_eq_some hfind)] at hheld
    cases hheld

/-- The key of a pair lies in the map around the pair. -/
theorem exists_key_inside (hnested : root.Nested) {l : Link} {rest : List Link}
    (hp : p ∈ root.places) (hpair : p.node.isPair = true)
    (hl : (⟨l.id, rest, l.node⟩ : Place) ∈ root.places) (habove : p.above = l :: rest)
    (hranged : l.node.range?.isSome = true) :
    ∃ key value, p.node = .pair (some key) (some value) ∧ key.Nested ∧ key.Inside l.node := by
  have hsettled := hnested.settled hp
  rw [rangedAbove?_below hp hl habove, if_pos hranged] at hsettled
  generalize p.node = t at hsettled hpair
  cases hsettled with
  | ranged t ht _ _ =>
    rw [ht.isPair] at hpair
    cases hpair
  | pair key value hkey _ _ _ _ haround => exact ⟨key, value, rfl, hkey, (haround _ rfl).1⟩

end

/-- A pair outside of keys hangs in a map, and its matches end there unless a value of the map holds
the start of its key. -/
theorem schemasOf_pair {source : String} {customTags : List String} {set : DocumentSet}
    {d : Document} {root : Tree} (hparse : DocumentSet.parse source customTags = .ok set)
    (hd : d ∈ set.documents) (hroot : d.root = some root) {p : Place} (hp : p ∈ root.places)
    (hpair : p.node.isPair = true) (hkeys : ∀ l ∈ p.above, l.side ≠ .key) :
    ∃ l s e, p.above.head? = some l ∧ p.node.located.range? = some (s, e) ∧
      PairMatches d root.visits l p s e := by
  have hnested := DocumentSet.nested_of_parse hparse hd hroot
  have hspaced := DocumentSet.spaced_of_parse hparse hd hroot
  cases hspaced.reached hp hkeys with
  | content cs hnot =>
      rw [hpair] at hnot
      cases hnot
  | entry cs i above info entries _ hpath hm hentry hids =>
      have hbranch : ⟨.entry, p.id, p.node⟩ ∈ branches i (.map info entries) :=
        List.mem_map.2 ⟨_, hentry, rfl⟩
      have habove : p.above = ⟨i, .map info entries, .entry⟩ :: above :=
        congrArg Place.above (place_unique hp (place_below hm hbranch) rfl)
      obtain ⟨lo, hi, hrange, -⟩ := hspaced.exists_range hm rfl
      obtain ⟨key, value, hnode, hkey, hinside⟩ :=
        exists_key_inside hnested hp hpair hm habove (by rw [hrange]; rfl)
      have hlocated : p.node.located = key := by
        rw [hnode]
        rfl
      -- The start of the key leads to the map, and maybe on from it.
      have hheld : (Tree.map info entries).contains (Int.ofNat key.extent.1) = true := by
        rw [Inside, extent_of_range? hrange] at hinside
        exact (contains_iff hrange).2
          ⟨hinside.1, Nat.le_trans hkey.range.2.2 hinside.2⟩
      obtain ⟨more, hmore⟩ := exists_leads (Int.ofNat key.extent.1) i (.map info entries)
      obtain ⟨hleads, hrootHeld⟩ := hspaced.leads_of_path hpath (root_place root) hheld hmore
      have hfollows : ∀ j schema ms, d.matchesAt j schema (Int.ofNat key.extent.1) = .ok ms →
          Follows schema 0 (cs ++ more) ms :=
        fun _ _ _ hms => follows_matchesAt hroot hms hleads hrootHeld
      have hof : ∀ j schema, d.matchesOf j schema p.node =
          d.matchesAt j schema (Int.ofNat key.extent.1) := by
        intro j schema
        rw [matchesOf, hlocated, hkey.range.1]
      refine ⟨⟨i, .map info entries, .entry⟩, key.extent.1, key.extent.2, ?_, ?_, ?_, ?_, ?_, ?_⟩
      · rw [habove]
        rfl
      · rw [hlocated]
        exact hkey.range?_eq
      · rw [hids]
        exact getLast?_path hpath
      · intro j schema ms hms
        rw [hof] at hms
        refine ⟨more.map (·.id), ?_, exists_content_of_leads hm hmore⟩
        rw [hids, List.cons_append, ← List.map_append]
        exact (hfollows j schema ms hms).nodes
      · simp only [schemasOf, hof, hids]
        exact (ends_iff_of_follows hfollows).trans (leads_nil_iff hmore)
      · intro c hc hholds
        rw [hnode] at hentry
        exact touching_cases hnested hspaced hm hentry hkey.range?_eq hc hholds

def flowValueText : String :=
  "- a: {b: 1}\n  c: 2\n"

def blockValueText : String :=
  "a:\n  b: 1\nc: 2\n"

theorem schemasOf_pair_flowValueText :
    ∃ set d root p, DocumentSet.parse flowValueText [] = .ok set ∧ d ∈ set.documents ∧
      d.root = some root ∧ p ∈ root.places ∧ p.node.keyText? = some "c" ∧
      p.node.isPair = true ∧ (∀ l ∈ p.above, l.side ≠ .key) ∧
      ∃ l s e, p.above.head? = some l ∧ p.node.located.range? = some (s, e) ∧
        PairMatches d root.visits l p s e := by
  have hread : ∃ set ∈ (DocumentSet.parse flowValueText []).toOption, ∃ d ∈ set.documents,
      ∃ root ∈ d.root, ∃ p ∈ root.places, p.node.keyText? = some "c" ∧
        p.node.isPair = true ∧ p.above.all (·.side != .key) = true := by
    decide +kernel
  rcases hread with ⟨set, hset, d, hd, root, hroot, p, hp, hkey, hpair, hsides⟩
  have hparse := Outcome.toOption_eq_some.1 hset
  have hkeys : ∀ l ∈ p.above, l.side ≠ .key :=
    fun l hl => bne_iff_ne.1 (List.all_eq_true.1 hsides l hl)
  exact ⟨set, d, root, p, hparse, hd, hroot, hp, hkey, hpair, hkeys,
    schemasOf_pair hparse hd hroot hp hpair hkeys⟩

/-- The map that is the value of `a` ends where `c` starts, and is matched for the pair of `c`. -/
theorem schemasOf_blockValueText :
    ∃ set d root p ms, DocumentSet.parse blockValueText [] = .ok set ∧ d ∈ set.documents ∧
      d.root = some root ∧ p ∈ root.places ∧ p.node.keyText? = some "c" ∧
      (∀ l ∈ p.above, l.side ≠ .key) ∧
      d.schemasOf (.map [(.str "properties", .map [(.str "a", .map [])])]) p.node = .ok ms ∧
      ms.map (·.node) = [0, 3] ∧ rangedPath root.visits p.id = [0] := by
  have hread : ∃ set ∈ (DocumentSet.parse blockValueText []).toOption, ∃ d ∈ set.documents,
      ∃ root ∈ d.root, ∃ p ∈ root.places, p.node.keyText? = some "c" ∧
        p.above.all (·.side != .key) = true ∧
        ∃ ms ∈ (d.schemasOf (.map [(.str "properties", .map [(.str "a", .map [])])])
            p.node).toOption,
          ms.map (·.node) = [0, 3] ∧ rangedPath root.visits p.id = [0] := by
    decide +kernel
  rcases hread with
    ⟨set, hset, d, hd, root, hroot, p, hp, hkey, hsides, ms, hms, hnodes, hpath⟩
  exact ⟨set, d, root, p, ms, Outcome.toOption_eq_some.1 hset, hd, hroot, hp, hkey,
    fun l hl => bne_iff_ne.1 (List.all_eq_true.1 hsides l hl), Outcome.toOption_eq_some.1 hms,
    hnodes, hpath⟩

end Document
end YamlServer
