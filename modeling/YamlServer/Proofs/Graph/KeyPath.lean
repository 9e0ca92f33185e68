import YamlServer.Proofs.Graph.Search

/-!
# The search as a way down

The search tries paths breadth first, but of each length it extends one path at most: the one that
follows the route. So it goes down key by key. From the definitions of a key it comes to those of
the next key if one of them lists it, to none if none does, and to a fault if the key is listed
without having an entry. This says which fault the search ends with as well as which definitions it
finds.

The route may go on to the target itself; where the path is complete, both say the same.

Only the children have to be texts here. The keys of the entries may be anything.

* `Graph.pick`, `Graph.descend`: one step down, and all of them.
* `Graph.search_eq_descend`: the search is the way down.
-/

namespace YamlServer
namespace Graph

/-- All declared children are texts. -/
def TextChildren (g : Graph) : Prop :=
  ∀ c ∈ g.allChildren, ∃ s, c = .str s

theorem Textual.textChildren {g : Graph} (hg : g.Textual) : g.TextChildren :=
  fun _ hc => hg.str_of_mem_allChildren hc

def lists (ds : List Definition) (key : Value) : Bool :=
  (ds.flatMap (·.children)).any fun c => Value.same c key

def pick (g : Graph) (ds : List Definition) (key : Value) : Except GraphFault (List Definition) :=
  if lists ds key then g.definitions key else .ok []

def descend (g : Graph) (ds : List Definition) (keys : List Value) :
    Except GraphFault (List Definition) :=
  keys.foldlM g.pick ds

section

variable {g : Graph} {ds : List Definition} {key : Value}

@[simp]
theorem descend_cons (g : Graph) (ds : List Definition) (key : Value) (keys : List Value) :
    g.descend ds (key :: keys) = g.pick ds key >>= fun ds' => g.descend ds' keys :=
  List.foldlM_cons ..

@[simp]
theorem descend_singleton (g : Graph) (ds : List Definition) (key : Value) :
    g.descend ds [key] = g.pick ds key := by
  rw [descend_cons]
  cases g.pick ds key <;> rfl

theorem pick_of_not_lists (h : lists ds key = false) : g.pick ds key = .ok [] := by
  rw [pick, h]
  rfl

@[simp]
theorem descend_none (g : Graph) (keys : List Value) : g.descend [] keys = .ok [] := by
  induction keys with
  | nil => rfl
  | cons key keys ih =>
    rw [descend_cons, pick_of_not_lists rfl]
    exact ih

/-- The only fault on the way down is a listed key without an entry. -/
theorem descend_fault {keys : List Value} {fault : GraphFault}
    (h : g.descend ds keys = .error fault) : ∃ key, fault = .undefinedKey key := by
  induction keys generalizing ds with
  | nil => cases h
  | cons key keys ih =>
    rw [descend_cons, pick] at h
    split at h
    · rcases g.definitions_cases key with ⟨ds', -, hds⟩ | ⟨-, hnone⟩
      · rw [hds] at h
        exact ih h
      · rw [hnone] at h
        cases h
        exact ⟨key, rfl⟩
    · exact ih h

/-- Where children are texts, a key is listed as it is. -/
theorem lists_iff (hds : ∀ c ∈ ds.flatMap (·.children), ∃ s, c = .str s) :
    lists ds key = true ↔ key ∈ ds.flatMap (·.children) := by
  rw [lists, List.any_eq_true]
  constructor
  · rintro ⟨c, hc, hsame⟩
    rw [Value.same_iff_of_isName (Or.inr (hds c hc))] at hsame
    exact hsame ▸ hc
  · intro h
    exact ⟨key, h, (Value.same_iff_of_isName (Or.inr (hds key h))).2 rfl⟩

end

/-! ## The paths of one length -/

/-- Extending a path that is longer than all paths seen queues one new path for each child. -/
theorem extend_fresh {path : List Value} (hpath : ∀ v ∈ path, v.IsName) {ds : List Definition}
    (hds : ∀ c ∈ ds.flatMap (·.children), ∃ s, c = .str s) {f : Frontier}
    (hseen : ∀ p ∈ f.seen, p.length ≤ path.length) :
    ∃ cs : List Value, extend path ds f =
        .ok ⟨f.waiting ++ cs.map (· :: path), f.seen ++ cs.map (· :: path)⟩ ∧
      cs.Nodup ∧ ∀ c, c ∈ cs ↔ c ∈ ds.flatMap (·.children) := by
  obtain ⟨new, hnew, hnodup, -, hfrom, hall⟩ := extendBy_spec hpath _ hds f
  -- Every new path is a child in front of the extended one.
  have hpaths : (new.map (·.headD .null)).map (· :: path) = new := by
    rw [List.map_map]
    conv_rhs => rw [← List.map_id new]
    refine List.map_congr_left ?_
    intro p hp
    obtain ⟨c, -, rfl⟩ := hfrom p hp
    rfl
  refine ⟨new.map (·.headD .null), ?_, ?_, ?_⟩
  · rw [hpaths, extend_eq]
    exact hnew
  · rw [← hpaths] at hnodup
    exact hnodup.of_map _
  · intro c
    constructor
    · intro hc
      obtain ⟨p, hp, rfl⟩ := List.mem_map.1 hc
      obtain ⟨c, hlisted, rfl⟩ := hfrom p hp
      exact hlisted
    · intro hc
      rcases List.mem_append.1 (hall c hc) with hold | hold
      · exact absurd (hseen _ hold) (by simp)
      · exact List.mem_map.2 ⟨_, hold, rfl⟩

section

variable {g : Graph} {route : List Value} {target : Value} {length : Int}

/-- A path that is neither the answer nor on the route, as the search compares them. -/
def Misses (route : List Value) (target : Value) (length : Int) (path : List Value) (c : Value) :
    Prop :=
  ¬ (length = (path.length : Int) + 1 ∧ Value.same c target = true) ∧
    ∀ key, route[path.length]? = some key → Value.same c key = false

/-- Paths that miss are tried one after the other, and dropped. -/
theorem searchFrom_misses {path cs : List Value} (more seen : List (List Value)) (fuel : Nat)
    (hcs : ∀ c ∈ cs, Misses route target length path c) :
    g.searchFrom route target length (fuel + cs.length) ⟨cs.map (· :: path) ++ more, seen⟩ =
      g.searchFrom route target length fuel ⟨more, seen⟩ := by
  induction cs with
  | nil => rfl
  | cons c cs ih =>
    obtain ⟨hmiss, hoff⟩ := hcs c List.mem_cons_self
    rw [List.length_cons, ← Nat.add_assoc, searchFrom_drop rfl hmiss hoff]
    exact ih fun c' hc' => hcs c' (List.mem_cons_of_mem _ hc')

@[simp]
theorem searchFrom_nil (fuel : Nat) (seen : List (List Value)) :
    g.searchFrom route target length fuel ⟨[], seen⟩ = .ok [] := by
  cases fuel <;> rfl

/-- What waits while the paths of one length are tried: `path` with each of the children in
front. -/
structure Level (g : Graph) (ds : List Definition) (path : List Value) (f : Frontier)
    (cs : List Value) : Prop where
  waiting : f.waiting = cs.map (· :: path)
  seen : ∀ p ∈ f.seen, p.length ≤ path.length + 1
  names : ∀ v ∈ path, v.IsName
  nodup : cs.Nodup
  mem : ∀ c, c ∈ cs ↔ c ∈ ds.flatMap (·.children)
  listed : ds.flatMap (·.children) ⊆ g.allChildren

namespace Level

variable {ds : List Definition} {path cs : List Value} {f : Frontier}

theorem texts (hg : g.TextChildren) (h : g.Level ds path f cs) :
    ∀ c ∈ ds.flatMap (·.children), ∃ s, c = .str s :=
  fun c hc => hg c (h.listed hc)

/-- There are no more paths of one length than declared children. -/
theorem length_le (h : g.Level ds path f cs) : cs.length ≤ g.childCount := by
  have hsub : cs ⊆ g.allChildren := fun c hc => h.listed ((h.mem c).1 hc)
  exact (h.nodup.subperm hsub).length_le

/-- If the wanted key is not among the children, all paths are dropped. -/
theorem not_listed (hg : g.TextChildren) (h : g.Level ds path f cs) {key : Value}
    (hmiss : ∀ c, c.IsName → c ≠ key → Misses route target length path c)
    (hkey : lists ds key = false) {fuel : Nat} (hfuel : g.childCount ≤ fuel) :
    g.searchFrom route target length fuel f = .ok [] := by
  have hcs : ∀ c ∈ cs, Misses route target length path c := by
    intro c hc
    have hmem := (h.mem c).1 hc
    refine hmiss c (Or.inr (h.texts hg c hmem)) ?_
    rintro rfl
    exact absurd ((lists_iff (h.texts hg)).2 hmem) (by simp [hkey])
  have hle := h.length_le
  obtain ⟨rest, rfl⟩ : ∃ rest, fuel = rest + cs.length := ⟨fuel - cs.length, by omega⟩
  have hrun := searchFrom_misses (g := g) [] f.seen rest hcs
  rw [List.append_nil, ← h.waiting] at hrun
  rw [hrun, searchFrom_nil]

/-- If it is, the paths before it are dropped, and its own one is tried next. -/
theorem exists_after (hg : g.TextChildren) (h : g.Level ds path f cs) {key : Value}
    (hmiss : ∀ c, c.IsName → c ≠ key → Misses route target length path c)
    (hkey : lists ds key = true) {fuel : Nat} (hfuel : g.childCount ≤ fuel) :
    ∃ (after : List Value) (rest : Nat), fuel ≤ rest + g.childCount ∧
      (∀ c ∈ after, Misses route target length path c) ∧
      g.searchFrom route target length fuel f = g.searchFrom route target length
        (rest + after.length + 1) ⟨(key :: path) :: after.map (· :: path), f.seen⟩ := by
  have hmem : key ∈ cs := (h.mem key).2 ((lists_iff (h.texts hg)).1 hkey)
  have hle := h.length_le
  obtain ⟨before, after, rfl⟩ := List.append_of_mem hmem
  rw [List.length_append, List.length_cons] at hle
  have hother : ∀ c ∈ before ++ after, Misses route target length path c := by
    intro c hc
    have hc' : c ∈ before ++ key :: after := by
      rcases List.mem_append.1 hc with hc | hc
      · exact List.mem_append_left _ hc
      · exact List.mem_append_right _ (List.mem_cons_of_mem _ hc)
    refine hmiss c (Or.inr (h.texts hg c ((h.mem c).1 hc'))) ?_
    rintro rfl
    exact (List.nodup_middle.1 h.nodup).notMem hc
  obtain ⟨rest, rfl⟩ : ∃ rest, fuel = rest + after.length + 1 + before.length :=
    ⟨fuel - before.length - after.length - 1, by omega⟩
  have hrun := searchFrom_misses (g := g) ((key :: path) :: after.map (· :: path)) f.seen
    (rest + after.length + 1)
    fun c hc => hother c (List.mem_append_left after hc)
  have hwaiting : f.waiting = before.map (· :: path) ++ (key :: path) :: after.map (· :: path) := by
    rw [h.waiting, List.map_append, List.map_cons]
  rw [← hwaiting] at hrun
  exact ⟨after, rest, by omega, fun c hc => hother c (List.mem_append_right _ hc), hrun⟩

/-- Extending the path of the wanted key leads to the paths that are longer by one, once those left
of this length are dropped. -/
theorem next (hg : g.TextChildren) (h : g.Level ds path f cs) {key : Value} (hname : key.IsName)
    {ds' : List Definition} (hget : g.get? key = some ds') {after : List Value}
    (hafter : ∀ c ∈ after, Misses route target length path c) (rest : Nat) :
    ∃ f' cs', g.Level ds' (key :: path) f' cs' ∧
      (extend (key :: path) ds' ⟨after.map (· :: path), f.seen⟩ >>=
        g.searchFrom route target length (rest + after.length)) =
      g.searchFrom route target length rest f' := by
  have hnames : ∀ v ∈ key :: path, v.IsName := by
    intro v hv
    rcases List.mem_cons.1 hv with rfl | hv
    · exact hname
    · exact h.names v hv
  have hlisted : ds'.flatMap (·.children) ⊆ g.allChildren := by
    intro c hc
    have hchild : c ∈ g.childrenOf key := by rwa [childrenOf, hget]
    exact mem_allChildren hchild
  obtain ⟨cs', hextend, hnodup, hmem⟩ := extend_fresh hnames (fun c hc => hg c (hlisted hc))
    (f := ⟨after.map (· :: path), f.seen⟩) h.seen
  refine ⟨⟨cs'.map (· :: key :: path), f.seen ++ cs'.map (· :: key :: path)⟩, cs',
    ⟨rfl, ?_, hnames, hnodup, hmem, hlisted⟩, ?_⟩
  · intro p hp
    rcases List.mem_append.1 hp with hp | hp
    · exact Nat.le_succ_of_le (h.seen p hp)
    · obtain ⟨c, -, rfl⟩ := List.mem_map.1 hp
      exact Nat.le_refl _
  · rw [hextend]
    exact searchFrom_misses _ _ rest hafter

/-- From the paths of one length on, the search goes down by the keys of the route that are left,
and then to the target. -/
theorem searchFrom_eq (hg : g.TextChildren) (mid : List Value) {left : List Value}
    (hleft : left = [] ∨ left = [target]) {fuel : Nat} (h : g.Level ds path f cs)
    (hroute : route.drop path.length = mid ++ left)
    (hlength : length = path.length + mid.length + 1)
    (hfuel : (mid.length + 1) * g.childCount ≤ fuel) :
    g.searchFrom route target length fuel f = g.descend ds (mid ++ [target]) := by
  -- On the keys that are left: each of them is a level of its own.
  induction mid generalizing ds path cs f fuel with
  | nil =>
    have hlast : length = (path.length : Int) + 1 := by simpa using hlength
    have hmiss : ∀ c, c.IsName → c ≠ target → Misses route target length path c := by
      intro c hname hne
      have hfalse : Value.same c target = false := by
        rwa [← Bool.not_eq_true, Value.same_iff_of_isName hname]
      refine ⟨fun hhit => by simp [hfalse] at hhit, ?_⟩
      intro key hkey
      rw [← Nat.add_zero path.length, ← List.getElem?_drop, hroute] at hkey
      rcases hleft with rfl | rfl
      · cases hkey
      · cases hkey
        exact hfalse
    rw [List.nil_append, descend_singleton, pick]
    have hfuel' : g.childCount ≤ fuel := by simpa using hfuel
    cases hlists : lists ds target with
    | false => exact h.not_listed hg hmiss hlists hfuel'
    | true =>
      have htext := h.texts hg target ((lists_iff (h.texts hg)).1 hlists)
      obtain ⟨after, rest, -, -, hrun⟩ := h.exists_after hg hmiss hlists hfuel'
      rw [hrun, searchFrom_hit rfl hlast ((Value.same_iff_of_isName (Or.inr htext)).2 rfl)]
      rfl
  | cons key mid ih =>
    have hkey : route[path.length]? = some key := by
      rw [← Nat.add_zero path.length, ← List.getElem?_drop, hroute]
      rfl
    have hlast : length ≠ (path.length : Int) + 1 := by
      rw [List.length_cons] at hlength
      omega
    have hmiss : ∀ c, c.IsName → c ≠ key → Misses route target length path c := by
      intro c hname hne
      refine ⟨fun hhit => hlast hhit.1, ?_⟩
      intro key' hkey'
      obtain rfl : key = key' := Option.some.inj (hkey.symm.trans hkey')
      rwa [← Bool.not_eq_true, Value.same_iff_of_isName hname]
    have hlevels : (mid.length + 1) * g.childCount + g.childCount ≤ fuel := by
      rwa [List.length_cons, Nat.succ_mul] at hfuel
    have hfuel' : g.childCount ≤ fuel := Nat.le_trans (Nat.le_add_left _ _) hlevels
    rw [List.cons_append, descend_cons, pick]
    cases hlists : lists ds key with
    | false =>
      rw [h.not_listed hg hmiss hlists hfuel']
      exact (descend_none g _).symm
    | true =>
      have hname : key.IsName := Or.inr (h.texts hg key ((lists_iff (h.texts hg)).1 hlists))
      obtain ⟨after, rest, hrest, hafter, hrun⟩ := h.exists_after hg hmiss hlists hfuel'
      rw [hrun, searchFrom_on rfl (fun hhit => hlast hhit.1) hkey
        ((Value.same_iff_of_isName hname).2 rfl), if_pos rfl]
      rcases g.definitions_cases key with ⟨ds', hget, hds⟩ | ⟨-, hnone⟩
      · obtain ⟨f', cs', hlevel, hnext⟩ := h.next hg hname hget hafter rest
        rw [hds]
        refine hnext.trans (ih hlevel ?_ ?_ (by omega))
        · rw [List.length_cons, ← List.drop_drop, hroute]
          rfl
        · rw [hlength, List.length_cons, List.length_cons]
          omega
      · rw [hnone]
        rfl

end Level

/-- The search goes down from the definitions of the topmost key, by the keys of the route to the
target. Whether the route goes on to the target or not makes no difference. -/
theorem search_eq_descend (hg : g.TextChildren) {top : Value} (htop : top.IsName)
    (mid : List Value) (target : Value) {left : List Value} (hleft : left = [] ∨ left = [target]) :
    g.search (top :: (mid ++ left)) target (mid.length + 2) =
      g.descend ((g.get? top).getD []) (mid ++ [target]) := by
  have hnames : ∀ v ∈ [top], v.IsName := by
    intro v hv
    rw [List.mem_singleton.1 hv]
    exact htop
  have hlisted : g.childrenOf top ⊆ g.allChildren := fun c hc => mem_allChildren hc
  obtain ⟨cs, hextend, hnodup, hmem⟩ := extend_fresh hnames (fun c hc => hg c (hlisted hc))
    (f := ⟨[], []⟩) (fun p hp => absurd hp List.not_mem_nil)
  have hlevel : g.Level ((g.get? top).getD []) [top]
      ⟨cs.map (· :: [top]), cs.map (· :: [top])⟩ cs := by
    refine ⟨rfl, ?_, hnames, hnodup, hmem, hlisted⟩
    intro p hp
    obtain ⟨c, -, rfl⟩ := List.mem_map.1 hp
    exact Nat.le_refl _
  rw [search, hextend]
  refine hlevel.searchFrom_eq hg mid hleft rfl ?_ ?_
  · rw [List.length_singleton]
    omega
  · have hle : (mid.length + 1) * g.childCount ≤
        ((top :: (mid ++ left)).length + 1) * (g.childCount + 1) := by
      refine Nat.mul_le_mul ?_ (Nat.le_succ _)
      rw [List.length_cons, List.length_append]
      omega
    omega

end

end Graph
end YamlServer
