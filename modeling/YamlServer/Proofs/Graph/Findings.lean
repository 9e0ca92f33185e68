import YamlServer.Proofs.Graph.Search
import YamlServer.Proofs.Graph.Walk

/-!
# The law of the findings

What validating a document against a graph reports, said by the key paths of the document alone: an
unknown key at a pair, a path that the graph does not have at a pair or at a scalar that is a pair's
value, and a value of no declared type at such a scalar.

The definitions that apply at a judged place are those of the last key of its path if the whole path
goes from key to declared child, and none otherwise. All keys that the search can look up on the way
have entries, because the walk judges nothing below a key without one.

* `Graph.verdict?`: what is wrong at a place, by its key path.
* `Graph.finding?`: the finding about a place.
-/

namespace YamlServer
namespace Graph

open YamlServer.Tree (Place Link)

/-! ## Keys around a place -/

variable {g : Graph} {t : Tree} {p : Place}

theorem ancestorKeys_place (hp : p ∈ t.places) :
    ancestorKeys t.visits p.id =
      p.above.filterMap fun l => if l.node.isPair then some (keyValue l.node) else none := by
  rw [ancestorKeys, Tree.ancestors_place hp, List.filterMap_map]
  refine List.filterMap_congr ?_
  intro l hl
  -- Every link is a place of the tree, so its number leads back to its node.
  obtain ⟨q, hq, hid, hnode⟩ := Tree.place_of_mem_above hp hl
  have hat : Tree.nodeAt? t.visits l.id = some l.node := by
    rw [← hid, ← hnode]
    exact Tree.nodeAt?_place hq
  simp [hat]

/-- Around an inspected place all keys are texts. -/
theorem Inspects.ancestorKeys_eq (h : g.Inspects p) (hp : p ∈ t.places) :
    ancestorKeys t.visits p.id = p.enclosingKeys.map Value.str := by
  rw [ancestorKeys_place hp, Place.enclosingKeys, List.map_filterMap]
  refine List.filterMap_congr ?_
  intro l hl
  cases hpair : l.node.isPair with
  | false => simp [keyText?_eq_none hpair]
  | true =>
    obtain ⟨k, hk, -⟩ := (h l hl).2 hpair
    rw [Option.mem_def] at hk
    simp [keyValue, hk]

/-- Around an inspected place all keys have entries. -/
theorem Inspects.contains_of_mem (h : g.Inspects p) {k : String} (hk : k ∈ p.enclosingKeys) :
    g.contains (.str k) = true := by
  obtain ⟨l, hl, hkl⟩ := List.mem_filterMap.1 hk
  obtain ⟨k', hk', hc⟩ := (h l hl).2 (keyText?_eq_some hkl)
  obtain rfl : k = k' := Option.some.inj (hkl.symm.trans hk')
  exact hc

/-- A pair's scalar value has its pair's key nearest. -/
theorem Inspects.enclosingKeys_of_value (h : g.Inspects p) (hvalue : p.scalarValue?.isSome) :
    p.node.isPair = false ∧ ∃ k rest, p.enclosingKeys = k :: rest := by
  unfold Place.scalarValue? at hvalue
  split at hvalue
  · rename_i n key value rest hnode habove
    have hlink := h ⟨n, .pair key value, .value⟩ (habove ▸ List.mem_cons_self)
    obtain ⟨k, hk, -⟩ := hlink.2 rfl
    refine ⟨by rw [hnode]; rfl, k, rest.filterMap (·.node.keyText?), ?_⟩
    rw [Place.enclosingKeys, habove]
    exact List.filterMap_cons_some hk
  · simp at hvalue

/-! ## Faults of the search -/

theorem extendBy_fault {path children : List Value} {f : Frontier} {fault : GraphFault}
    (h : extendBy path children f = .error fault) : fault = .compositeKey := by
  induction children generalizing f with
  | nil => simp [extendBy] at h
  | cons c rest ih =>
    simp only [extendBy] at h
    split at h
    · exact (Except.error.inj h).symm
    · split at h
      · exact ih h
      · exact ih h

theorem extend_fault {path : List Value} {ds : List Definition} {f : Frontier} {fault : GraphFault}
    (h : extend path ds f = .error fault) : fault = .compositeKey := by
  rw [extend_eq] at h
  exact extendBy_fault h

/-- A text with an entry. -/
def HasEntry (g : Graph) (v : Value) : Prop :=
  (∃ k, v = .str k) ∧ g.contains v = true

theorem HasEntry.definitions_of_same {v w : Value} (hv : g.HasEntry v)
    (hsame : Value.same w v = true) : ∃ ds, g.definitions w = .ok ds := by
  obtain ⟨⟨k, rfl⟩, hc⟩ := hv
  rw [Value.same_str_right] at hsame
  subst hsame
  obtain ⟨ds, -, hds⟩ := exists_definitions hc
  exact ⟨ds, hds⟩

/-- The search over keys with entries never misses one: it looks up a key only where it equals one
of the route or the target. Composite children are all that can stop it. -/
theorem searchFrom_fault {route : List Value} {target : Value} {length : Int} {fuel : Nat}
    (hroute : ∀ v ∈ route, g.HasEntry v) (htarget : g.HasEntry target) {f : Frontier}
    {fault : GraphFault} (h : g.searchFrom route target length fuel f = .error fault) :
    fault = .compositeKey := by
  -- On the fuel. Definitions are looked up in two places only, each behind a comparison with a key
  -- that has an entry.
  induction fuel generalizing f with
  | zero => simp [searchFrom] at h
  | succ fuel ih =>
    cases hwaiting : f.waiting with
    | nil => simp [searchFrom, hwaiting] at h
    | cons path rest =>
      cases path with
      | nil =>
        rw [searchFrom, hwaiting] at h
        exact ih h
      | cons last before =>
        by_cases hhit : length = (before.length : Int) + 1 ∧ Value.same last target = true
        · obtain ⟨ds, hds⟩ := htarget.definitions_of_same hhit.2
          rw [searchFrom_hit hwaiting hhit.1 hhit.2, hds] at h
          cases h
        · by_cases hon : ∃ key, route[before.length]? = some key ∧ Value.same last key = true
          · obtain ⟨key, hkey, hsame⟩ := hon
            obtain ⟨ds, hds⟩ :=
              (hroute key (List.mem_of_getElem? hkey)).definitions_of_same hsame
            rw [searchFrom_on hwaiting hhit hkey hsame, hds] at h
            rcases Outcome.bind_eq_error.1 h with hnone | ⟨ds', -, h⟩
            · cases hnone
            · rcases Outcome.bind_eq_error.1 h with hext | ⟨next, -, hnext⟩
              · exact extend_fault hext
              · exact ih hnext
          · rw [searchFrom_drop hwaiting hhit ?_] at h
            · exact ih h
            · intro key hkey
              rw [← Bool.not_eq_true]
              intro hsame
              exact hon ⟨key, hkey, hsame⟩

theorem search_fault {route : List Value} {target : Value} {length : Int} (hne : route ≠ [])
    (hroute : ∀ v ∈ route, g.HasEntry v) (htarget : g.HasEntry target) {fault : GraphFault}
    (h : g.search route target length = .error fault) : fault = .compositeKey := by
  cases route with
  | nil => exact absurd rfl hne
  | cons top rest =>
    rcases Outcome.bind_eq_error.1 h with hext | ⟨f, -, hf⟩
    · exact extend_fault hext
    · exact searchFrom_fault hroute htarget hf

/-! ## Definitions at a judged place -/

/-- At a judged place definitions are looked up at once if the path has one key, and searched for
otherwise, the route being the path with or without its last key. -/
theorem Judges.matchNode_cases (h : g.Judges p) (hp : p ∈ t.places) :
    ∃ init k, p.keyPath = init ++ [k] ∧ (∀ k' ∈ init ++ [k], g.contains (.str k') = true) ∧
      (init = [] ∧ g.matchNode t.visits p.id p.node = .ok ((g.get? (.str k)).getD []) ∨
        init ≠ [] ∧ ∃ rest, (rest = [] ∨ rest = [k]) ∧
          g.matchNode t.visits p.id p.node =
            g.search ((init ++ rest).map Value.str) (.str k) (init.length + 1)) := by
  obtain ⟨hinspects, ⟨k, hk, hc⟩ | hvalue⟩ := h
  · -- A pair: its own key comes after the keys around it.
    have hpair : p.node.isPair = true := keyText?_eq_some hk
    have hown : keyValue p.node = .str k := by
      rw [Option.mem_def] at hk
      simp [keyValue, hk]
    refine ⟨p.enclosingKeys.reverse, k, ?_, ?_, ?_⟩
    · rw [Option.mem_def] at hk
      simp [Place.keyPath, hk]
    · intro k' hk'
      rcases List.mem_append.1 hk' with hk' | hk'
      · exact hinspects.contains_of_mem (List.mem_reverse.1 hk')
      · rw [List.mem_singleton.1 hk']
        exact hc
    · rw [matchNode, hinspects.ancestorKeys_eq hp]
      cases hkeys : p.enclosingKeys with
      | nil =>
        left
        simp [hpair, hown]
      | cons nearest outer =>
        right
        refine ⟨by simp, [], Or.inl rfl, ?_⟩
        simp [hpair, hown]
  · -- A pair's scalar value: its own key is the nearest one.
    obtain ⟨hnode, k, outer, hkeys⟩ := hinspects.enclosingKeys_of_value hvalue
    refine ⟨outer.reverse, k, ?_, ?_, ?_⟩
    · simp [Place.keyPath, hkeys, keyText?_eq_none hnode]
    · intro k' hk'
      refine hinspects.contains_of_mem ?_
      rw [hkeys]
      simpa [or_comm] using hk'
    · rw [matchNode, hinspects.ancestorKeys_eq hp, hkeys]
      cases outer with
      | nil =>
        left
        simp [hnode]
      | cons next outer =>
        right
        refine ⟨by simp, [k], Or.inr rfl, ?_⟩
        simp [hnode, Int.add_assoc]

/-- Composite children are all that can stop a judged place from having its definitions. -/
theorem Judges.matchNode_fault (h : g.Judges p) (hp : p ∈ t.places) {fault : GraphFault}
    (hfault : g.matchNode t.visits p.id p.node = .error fault) : fault = .compositeKey := by
  obtain ⟨init, k, -, hentries, ⟨-, hmatch⟩ | ⟨hne, rest, hrest, hmatch⟩⟩ := h.matchNode_cases hp
  · rw [hmatch] at hfault
    cases hfault
  · rw [hmatch] at hfault
    refine search_fault ?_ ?_ ⟨⟨k, rfl⟩, hentries k (by simp)⟩ hfault
    · simp [hne]
    · intro v hv
      obtain ⟨k', hk', rfl⟩ := List.mem_map.1 hv
      refine ⟨⟨k', rfl⟩, hentries k' ?_⟩
      rcases hrest with rfl | rfl
      · exact List.mem_append_left _ (by simpa using hk')
      · exact hk'

def definitionsAt (g : Graph) (keys : List String) : List Definition :=
  match keys.getLast? with
  | some k => (g.get? (.str k)).getD []
  | none => []

/-- Each key of a path is a declared child of the one before it. -/
def Linked (g : Graph) (keys : List String) : Prop :=
  keys.IsChain fun k c => g.Declares (.str k) (.str c)

instance (g : Graph) (keys : List String) : Decidable (g.Linked keys) :=
  inferInstanceAs (Decidable (keys.IsChain fun k c => g.Declares (.str k) (.str c)))

/-- The definitions found at a judged place are those of its path's last key, if the path exists. -/
theorem Judges.matchNode_spec (hg : g.Textual) (h : g.Judges p) (hp : p ∈ t.places) :
    g.matchNode t.visits p.id p.node =
      .ok (if g.Linked p.keyPath then g.definitionsAt p.keyPath else []) := by
  obtain ⟨init, k, hpath, hentries, ⟨rfl, hmatch⟩ | ⟨hne, rest, hrest, hmatch⟩⟩ :=
    h.matchNode_cases hp
  · have hlinked : g.Linked p.keyPath := by
      rw [hpath]
      exact List.IsChain.singleton k
    rw [hmatch, if_pos hlinked, hpath]
    rfl
  · have hroute : ∀ v ∈ (init ++ rest).map Value.str, v.IsName := by
      intro v hv
      obtain ⟨k', -, rfl⟩ := List.mem_map.1 hv
      exact Value.isName_str k'
    -- The route consists of keys of the path, all of which have entries.
    have hcovers : g.Covers ((init ++ rest).map Value.str) (.str k) := by
      intro key hkey _
      rcases hkey with rfl | hkey
      · exact hentries k (by simp)
      · obtain ⟨k', hk', rfl⟩ := List.mem_map.1 (List.mem_of_mem_tail hkey)
        refine hentries k' ?_
        rcases hrest with rfl | rfl
        · exact List.mem_append_left _ (by simpa using hk')
        · exact hk'
    -- Cut to the wanted length, the route is the path without its last key in both cases.
    have hleads : g.Leads ((init ++ rest).map Value.str) (.str k) (init.length + 1) ↔
        g.Linked p.keyPath := by
      have htake : ((init ++ rest).map Value.str).take init.length ++ [Value.str k] =
          (init ++ [k]).map Value.str := by
        simp
      rw [hpath, Linked, ← List.isChain_map (f := Value.str), ← htake]
      constructor
      · rintro ⟨n, hn, hfollows⟩
        obtain rfl : n = init.length := by omega
        exact hfollows.chain
      · intro hchain
        refine ⟨init.length, rfl, List.length_pos_iff.2 hne, ?_, hchain⟩
        simp
    obtain ⟨ds, hds, hanswer⟩ := search_spec hg hroute (by simp [hne]) hcovers (init.length + 1)
    rw [hmatch, hds]
    rcases hanswer with ⟨hyes, hget⟩ | ⟨hno, rfl⟩
    · rw [if_pos (hleads.1 hyes), hpath]
      simp [definitionsAt, hget]
    · rw [if_neg fun hlinked => hno (hleads.2 hlinked)]

/-! ## What is wrong at a place -/

/-- The path goes from key to declared child, and its last key has a definition. -/
def Allows (g : Graph) (keys : List String) : Prop :=
  g.Linked keys ∧ g.definitionsAt keys ≠ []

instance (g : Graph) (keys : List String) : Decidable (g.Allows keys) :=
  inferInstanceAs (Decidable (g.Linked keys ∧ g.definitionsAt keys ≠ []))

/-- A judged place whose path the graph does not have. -/
def Misplaces (g : Graph) (p : Place) : Prop :=
  g.Judges p ∧ ¬ g.Allows p.keyPath

/-- A judged scalar at the end of a path of the graph, with a value that no definition accepts. -/
def Mistypes (g : Graph) (p : Place) : Prop :=
  g.Judges p ∧ g.Allows p.keyPath ∧
    ∃ v ∈ p.scalarValue?, ∀ d ∈ g.definitionsAt p.keyPath, d.accepts v = false

instance (g : Graph) (p : Place) : Decidable (g.Misplaces p) :=
  inferInstanceAs (Decidable (g.Judges p ∧ ¬ g.Allows p.keyPath))

instance (g : Graph) (p : Place) : Decidable (g.Mistypes p) :=
  inferInstanceAs (Decidable (g.Judges p ∧ g.Allows p.keyPath ∧
    ∃ v ∈ p.scalarValue?, ∀ d ∈ g.definitionsAt p.keyPath, d.accepts v = false))

def verdict? (g : Graph) (p : Place) : Option SchemaWarning :=
  if g.Rejects p then some .unknownKey
  else if g.Misplaces p then some .schemaMismatch
  else if g.Mistypes p then some .typeMismatch
  else none

def wording (g : Graph) (p : Place) : SchemaWarning → String
  | .unknownKey => "Unknown key \"" ++ p.ownKey ++ "\""
  | .schemaMismatch => "\"" ++ p.ownKey ++ "\" is not allowed at this position"
  | .typeMismatch =>
    "Value of \"" ++ p.ownKey ++ "\" should be of type " ++
      Value.joined " | " (typeNames (g.definitionsAt p.keyPath))

def linesBefore (g : Graph) (places : List Place) (id : Nat) : Nat :=
  places.countP fun q => q.id < id ∧ g.Counts q

/-- The finding about a place: where the node or a pair's key stands, and the line before the last
one counted, the first line being 0. -/
def finding? (g : Graph) (places : List Place) (p : Place) : Option SchemaFinding :=
  (g.verdict? p).map fun w =>
    { node := p.id
      start := p.node.located.start?
      stop := p.node.located.stop?
      message := g.wording p w
      line := g.linesBefore places p.id - 1
      warning := w }

/-- Whatever is complained about at a place is its verdict in words. -/
theorem complaintAt_eq (hg : g.Textual) (hp : p ∈ t.places) :
    g.complaintAt (g.matchNode t.visits) p =
      .ok ((g.verdict? p).map fun w => (w, g.wording p w)) := by
  -- The cases of the walk are those of the verdict, in the same order.
  by_cases hrejects : g.Rejects p
  · simp [complaintAt, verdict?, hrejects, wording]
  · by_cases hjudges : g.Judges p
    · rw [complaintAt, if_neg hrejects, if_pos hjudges, hjudges.matchNode_spec hg hp]
      by_cases hallows : g.Allows p.keyPath
      · have hmisplaces : ¬ g.Misplaces p := fun h => h.2 hallows
        have hempty : (g.definitionsAt p.keyPath).isEmpty = false := by
          rw [← Bool.not_eq_true, List.isEmpty_iff]
          exact hallows.2
        have hmistypes : g.Mistypes p ↔
            ∃ v ∈ p.scalarValue?, ∀ d ∈ g.definitionsAt p.keyPath, d.accepts v = false := by
          simp [Mistypes, hjudges, hallows]
        simp only [Except.map, if_pos hallows.1, objection, hempty, Bool.false_eq_true, if_false,
          verdict?, hrejects, hmisplaces, hmistypes]
        cases hvalue : p.scalarValue? with
        | none => simp
        | some v =>
          by_cases hany : (g.definitionsAt p.keyPath).any (fun d => d.accepts v) = true
          · have hno : ¬ ∀ d ∈ g.definitionsAt p.keyPath, d.accepts v = false := by
              intro hall
              obtain ⟨d, hd, haccepts⟩ := List.any_eq_true.1 hany
              simp [hall d hd] at haccepts
            simp [hany, hno]
          · have hall : ∀ d ∈ g.definitionsAt p.keyPath, d.accepts v = false := by
              intro d hd
              rw [← Bool.not_eq_true]
              intro haccepts
              exact hany (List.any_eq_true.2 ⟨d, hd, haccepts⟩)
            have hyes : ∃ v' ∈ some v, ∀ d ∈ g.definitionsAt p.keyPath, d.accepts v' = false :=
              ⟨v, rfl, hall⟩
            simp only [hany, hyes, Bool.false_eq_true, if_false, if_true, Option.map_some, wording]
      -- Without a path in the graph the search found nothing, or a key without definitions.
      · have hmisplaces : g.Misplaces p := ⟨hjudges, hallows⟩
        have hnone : (if g.Linked p.keyPath then g.definitionsAt p.keyPath else []) = [] := by
          split
          · rename_i hlinked
            by_contra hne
            exact hallows ⟨hlinked, hne⟩
          · rfl
        simp [hnone, Except.map, objection, verdict?, hrejects, hmisplaces, wording]
    · have hmisplaces : ¬ g.Misplaces p := fun h => hjudges h.1
      have hmistypes : ¬ g.Mistypes p := fun h => hjudges h.1
      simp [complaintAt, hrejects, hjudges, verdict?, hmisplaces, hmistypes]

/-! ## All findings -/

def reportAt (g : Graph) (r : Report) (p : Place) : Report :=
  g.tally p (r.note p.id p.node ((g.verdict? p).map fun w => (w, g.wording p w)))

theorem foldlM_stepAt (hg : g.Textual) (ps : List Place) (hps : ∀ p ∈ ps, p ∈ t.places)
    (r : Report) :
    ps.foldlM (g.stepAt (g.matchNode t.visits)) r = .ok (ps.foldl g.reportAt r) := by
  induction ps generalizing r with
  | nil => rfl
  | cons p ps ih =>
    have hstep : g.stepAt (g.matchNode t.visits) r p = .ok (g.reportAt r p) := by
      rw [stepAt, complaintAt_eq hg (hps p List.mem_cons_self)]
      rfl
    rw [List.foldlM_cons, hstep, List.foldl_cons]
    exact ih (fun q hq => hps q (List.mem_cons_of_mem _ hq)) _

@[simp]
theorem reportAt_lines (r : Report) (p : Place) :
    (g.reportAt r p).lines = r.lines + if g.Counts p then 1 else 0 := by
  have hnote : ∀ c, (r.note p.id p.node c).lines = r.lines := by
    intro c
    cases c <;> rfl
  rw [reportAt, tally]
  split
  · simp [hnote]
  · simp [hnote]

@[simp]
theorem reportAt_findings (r : Report) (p : Place) :
    (g.reportAt r p).findings = r.findings ++ ((g.verdict? p).map fun w =>
      (⟨p.id, p.node.located.start?, p.node.located.stop?, g.wording p w, r.lines - 1, w⟩ :
        SchemaFinding)).toList := by
  have htally : ∀ r' : Report, (g.tally p r').findings = r'.findings := by
    intro r'
    unfold tally
    split <;> rfl
  rw [reportAt, htally]
  cases g.verdict? p with
  | none => simp [Report.note]
  | some w => rfl

/-- Going through places in the order of their numbers collects the findings about each of them, the
line of each being the count of what came before. -/
theorem foldl_reportAt (ps : List Place) (hsorted : ps.Pairwise fun p q => p.id < q.id) :
    ps.foldl g.reportAt ⟨0, []⟩ =
      ⟨ps.countP fun p => g.Counts p, ps.filterMap (g.finding? ps)⟩ := by
  -- From the back: the last place has all others before it, and none of them looks at it.
  induction ps using List.reverseRecOn with
  | nil => rfl
  | append_singleton ps p ih =>
    obtain ⟨hps, -, hlast⟩ := List.pairwise_append.1 hsorted
    have hlt : ∀ q ∈ ps, q.id < p.id := fun q hq => hlast q hq p List.mem_cons_self
    have hlines : g.linesBefore (ps ++ [p]) p.id = ps.countP fun q => g.Counts q := by
      rw [linesBefore, List.countP_append]
      have hown : [p].countP (fun q => decide (q.id < p.id ∧ g.Counts q)) = 0 := by simp
      rw [hown, Nat.add_zero]
      refine List.countP_congr ?_
      intro q hq
      simp [hlt q hq]
    -- A later place does not move the line of an earlier finding.
    have hearlier : ∀ q ∈ ps, g.finding? (ps ++ [p]) q = g.finding? ps q := by
      intro q hq
      have hbefore : g.linesBefore (ps ++ [p]) q.id = g.linesBefore ps q.id := by
        have hnot : ¬ p.id < q.id := Nat.not_lt.2 (Nat.le_of_lt (hlt q hq))
        simp [linesBefore, List.countP_append, hnot]
      rw [finding?, finding?, hbefore]
    have hcollect : (ps ++ [p]).filterMap (g.finding? (ps ++ [p])) =
        ps.filterMap (g.finding? ps) ++ (g.finding? (ps ++ [p]) p).toList := by
      rw [List.filterMap_append, List.filterMap_congr hearlier]
      cases hf : g.finding? (ps ++ [p]) p with
      | none => simp [hf]
      | some f => simp [hf]
    have heta : ∀ r : Report, r = ⟨r.lines, r.findings⟩ := fun _ => rfl
    rw [List.foldl_append, List.foldl_cons, List.foldl_nil, ih hps, hcollect, heta (g.reportAt _ p),
      reportAt_lines, reportAt_findings, finding?, hlines, List.countP_append]
    simp [List.countP_singleton]

theorem validate_eq_foldl (hg : g.Textual) (d : Document) :
    g.validate d = .ok ((Tree.placesOf d.root).foldl g.reportAt ⟨0, []⟩) := by
  rw [validate_eq_foldlM, Document.visits]
  cases d.root with
  | none => rfl
  | some t => exact foldlM_stepAt hg t.places (fun _ hp => hp) ⟨0, []⟩

theorem pairwise_id_places (root : Option Tree) :
    (Tree.placesOf root).Pairwise fun p q => p.id < q.id := by
  cases root with
  | none => exact List.Pairwise.nil
  | some t =>
    have h : (t.places.map (·.id)).Pairwise (· < ·) := by
      rw [Tree.places, Tree.map_id_placesFrom]
      exact List.pairwise_lt_range'
    exact List.pairwise_map.1 h

/-- Validating a document against a graph of texts always gives a report. Its findings are those
about the nodes of the document one by one, in the order of the walk. -/
theorem validate_eq_findings (hg : g.Textual) (d : Document) :
    d.visits = (Tree.placesOf d.root).map Place.visit ∧
      g.validate d =
        .ok ⟨(Tree.placesOf d.root).countP fun p => g.Counts p,
          (Tree.placesOf d.root).filterMap (g.finding? (Tree.placesOf d.root))⟩ := by
  refine ⟨Tree.visitsOf_eq_places d.root, ?_⟩
  rw [validate_eq_foldl hg, foldl_reportAt _ (pairwise_id_places d.root)]

/-- A graph with a recursive key, a child without an entry, and a key without definitions. -/
def workloadGraph : Graph :=
  ⟨[(.str "spec", [⟨.object, [.str "spec", .str "replicas", .str "ghost"]⟩]),
    (.str "replicas", [⟨.integer, []⟩]), (.str "void", [])]⟩

def wordTree (raw : String) : Tree :=
  .scalar ⟨none, none, none, none, none⟩ (.str raw) raw none

/-- `spec: {replicas: many, ghost: x, void: y}`. -/
def workloadDocument : Document :=
  Document.ofTree (some (.map ⟨none, none, none, none, none⟩
    [.pair (some (wordTree "spec")) (some (.map ⟨none, none, none, none, none⟩
      [.pair (some (wordTree "replicas")) (some (wordTree "many")),
       .pair (some (wordTree "ghost")) (some (wordTree "x")),
       .pair (some (wordTree "void")) (some (wordTree "y"))]))]))

theorem workloadGraph_textual : workloadGraph.Textual := by
  constructor
  · simp [workloadGraph]
  · simp [workloadGraph]

theorem validate_eq_findings_workload :
    workloadGraph.Textual ∧
      (workloadGraph.validate workloadDocument).map
          (fun r => r.findings.map fun f => (f.node, f.warning, f.line)) =
        .ok [(6, .typeMismatch, 1), (7, .unknownKey, 2), (10, .schemaMismatch, 2),
          (12, .schemaMismatch, 2)] := by
  refine ⟨workloadGraph_textual, ?_⟩
  rw [(validate_eq_findings workloadGraph_textual workloadDocument).2]
  refine congrArg Except.ok ?_
  decide +kernel

/-! ## No defect of the graph shows -/

theorem stepAt_fault {m : Nat → Tree → Except GraphFault (List Definition)} {r : Report}
    {fault : GraphFault} (h : g.stepAt m r p = .error fault) :
    g.Judges p ∧ m p.id p.node = .error fault := by
  rw [stepAt, Outcome.map_eq_error, complaintAt] at h
  split at h
  · cases h
  · split at h
    · rename_i hjudges
      exact ⟨hjudges, Outcome.map_eq_error.1 h⟩
    · cases h

/-- The definitions of places that are not judged have no part in a step. -/
theorem stepAt_congr {m m' : Nat → Tree → Except GraphFault (List Definition)}
    (h : g.Judges p → m p.id p.node = m' p.id p.node) (r : Report) :
    g.stepAt m r p = g.stepAt m' r p := by
  by_cases hjudges : g.Judges p
  · rw [stepAt, stepAt, complaintAt, complaintAt, h hjudges]
  · rw [stepAt, stepAt, complaintAt, complaintAt, if_neg hjudges, if_neg hjudges]

def missesKey : Except GraphFault (List Definition) → Bool
  | .error (.undefinedKey _) => true
  | _ => false

theorem exists_of_missesKey {x : Except GraphFault (List Definition)} (h : missesKey x = true) :
    ∃ key, x = .error (.undefinedKey key) := by
  unfold missesKey at h
  split at h
  · exact ⟨_, rfl⟩
  · cases h

/-- Validation never fails because a child has no entry, for any graph and document: it looks up
definitions at judged places only, and there every key that the search needs has an entry. At other
places of the same document the look-up does fail for some graphs. -/
theorem validate_shows_no_graph_defect :
    (∀ (g : Graph) (d : Document),
      (∀ fault, g.validate d = .error fault → fault.message? = none) ∧
        (∀ m, (∀ p ∈ Tree.placesOf d.root, g.Judges p →
            m p.id p.node = g.matchNode d.visits p.id p.node) →
          g.validate d = (Tree.placesOf d.root).foldlM (g.stepAt m) ⟨0, []⟩) ∧
        ∀ p ∈ Tree.placesOf d.root, g.Judges p → ∀ fault,
          g.matchNode d.visits p.id p.node = .error fault → fault.message? = none) ∧
      ∃ (g : Graph) (d : Document), ∃ p ∈ Tree.placesOf d.root,
        (∃ r, g.validate d = .ok r) ∧
          ∃ key, g.matchNode d.visits p.id p.node = .error (.undefinedKey key) := by
  constructor
  · intro g d
    have hmatch : ∀ p ∈ Tree.placesOf d.root, g.Judges p → ∀ fault,
        g.matchNode d.visits p.id p.node = .error fault → fault.message? = none := by
      intro p hp hjudges fault hfault
      rw [Document.visits] at hfault
      cases hroot : d.root with
      | none =>
          rw [hroot] at hp
          cases hp
      | some t =>
          rw [hroot] at hp hfault
          rw [hjudges.matchNode_fault hp hfault]
          rfl
    refine ⟨?_, ?_, hmatch⟩
    · intro fault hfault
      rw [validate_eq_foldlM] at hfault
      obtain ⟨p, hp, r, hstep⟩ := Outcome.foldlM_eq_error hfault
      obtain ⟨hjudges, hlookup⟩ := stepAt_fault hstep
      exact hmatch p hp hjudges fault hlookup
    · intro m hm
      rw [validate_eq_foldlM]
      refine Outcome.foldlM_congr ?_ _
      intro p hp r
      exact stepAt_congr (fun hjudges => (hm p hp hjudges).symm) r
  · -- The pair `ghost` of the document is unknown, so that the walk does not look it up.
    have hplace : 7 < (Tree.placesOf workloadDocument.root).length := by decide +kernel
    refine ⟨workloadGraph, workloadDocument, _, List.getElem_mem hplace, ?_, ?_⟩
    · exact ⟨_, validate_eq_foldl workloadGraph_textual workloadDocument⟩
    · have hmisses : missesKey (workloadGraph.matchNode workloadDocument.visits
          (Tree.placesOf workloadDocument.root)[7].id
          (Tree.placesOf workloadDocument.root)[7].node) = true := by
        decide +kernel +revert
      exact exists_of_missesKey hmisses

end Graph
end YamlServer
