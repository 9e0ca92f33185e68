import Mathlib.Data.List.Chain
import Mathlib.Data.List.Nodup
import Mathlib.Data.List.Perm.Subperm
import YamlServer.Graph.Match
import YamlServer.Proofs.Value

/-!
# What the path search finds

The search tries paths breadth first and extends those that follow the route. Its answer does not
depend on the order in which it tries them: it is the definitions of the target if the route, cut
to the wanted length and continued by the target, goes from key to declared child all the way, and
nothing otherwise.

The invariant of the loop says that the paths seen so far are the ones tried and the ones waiting,
each once; that each of them leaves the route with its last key only; and that what was tried and
follows the route has all its extensions among the paths seen. Paths of this form are finite in
number, so that the loop ends within its bound.

* `Graph.search_spec`: the answer of the search where no entry is missing.
-/

namespace YamlServer
namespace Graph

/-! ## Declared children -/

def childrenOf (g : Graph) (key : Value) : List Value :=
  ((g.get? key).getD []).flatMap (·.children)

/-- Some definition of a key lists a child. -/
def Declares (g : Graph) (key child : Value) : Prop :=
  ∃ c ∈ g.childrenOf key, Value.same c child

instance (g : Graph) (key child : Value) : Decidable (g.Declares key child) :=
  decidable_of_iff ((g.childrenOf key).any fun c => Value.same c child) List.any_eq_true

/-- A graph whose keys and declared children are texts. -/
structure Textual (g : Graph) : Prop where
  keys : ∀ e ∈ g.entries, ∃ s, e.1 = .str s
  children : ∀ e ∈ g.entries, ∀ d ∈ e.2, ∀ c ∈ d.children, ∃ s, c = .str s

theorem exists_entry_of_find? {key : Value} {entries : List (Value × List Definition)}
    {ds : List Definition} (h : find? key entries = some ds) : ∃ k, (k, ds) ∈ entries := by
  induction entries with
  | nil => simp [find?] at h
  | cons e rest ih =>
    obtain ⟨k, ds'⟩ := e
    rw [find?] at h
    split at h
    · cases h
      exact ⟨k, List.mem_cons_self⟩
    · obtain ⟨k', hk'⟩ := ih h
      exact ⟨k', List.mem_cons_of_mem _ hk'⟩

def allChildren (g : Graph) : List Value :=
  g.entries.flatMap fun e => e.2.flatMap fun d => d.children

@[simp]
theorem length_allChildren (g : Graph) : g.allChildren.length = g.childCount :=
  rfl

theorem mem_allChildren {g : Graph} {key c : Value} (h : c ∈ g.childrenOf key) :
    c ∈ g.allChildren := by
  cases hds : g.get? key with
  | none => simp [childrenOf, hds] at h
  | some ds =>
    obtain ⟨k, hk⟩ := exists_entry_of_find? hds
    have hc : c ∈ ds.flatMap (·.children) := by simpa [childrenOf, hds] using h
    exact List.mem_flatMap.2 ⟨(k, ds), hk, hc⟩

namespace Textual

variable {g : Graph} {key child : Value}

theorem str_of_mem_allChildren (hg : g.Textual) {c : Value} (h : c ∈ g.allChildren) :
    ∃ s, c = .str s := by
  obtain ⟨e, he, hc⟩ := List.mem_flatMap.1 h
  obtain ⟨d, hd, hc⟩ := List.mem_flatMap.1 hc
  exact hg.children e he d hd c hc

theorem isName_of_mem_childrenOf (hg : g.Textual) {c : Value} (h : c ∈ g.childrenOf key) :
    c.IsName :=
  Or.inr (hg.str_of_mem_allChildren (mem_allChildren h))

/-- Where children are texts, a declared child is listed as it is. -/
theorem declares_iff (hg : g.Textual) : g.Declares key child ↔ child ∈ g.childrenOf key := by
  constructor
  · rintro ⟨c, hc, hsame⟩
    rw [Value.same_iff_of_isName (hg.isName_of_mem_childrenOf hc)] at hsame
    exact hsame ▸ hc
  · intro h
    exact ⟨child, h, (Value.same_iff_of_isName (hg.isName_of_mem_childrenOf h)).2 rfl⟩

theorem isName_of_declares (hg : g.Textual) (h : ∃ parent, g.Declares parent child) :
    child.IsName := by
  obtain ⟨parent, hchild⟩ := h
  exact hg.isName_of_mem_childrenOf (hg.declares_iff.1 hchild)

end Textual

/-! ## Extending a path -/

theorem extendBy_append (path as bs : List Value) (f : Frontier) :
    extendBy path (as ++ bs) f = extendBy path as f >>= extendBy path bs := by
  induction as generalizing f with
  | nil => rfl
  | cons a as ih =>
    simp only [List.cons_append, extendBy]
    split
    · rfl
    · split
      · exact ih f
      · exact ih _

theorem extend_eq (path : List Value) (ds : List Definition) (f : Frontier) :
    extend path ds f = extendBy path (ds.flatMap (·.children)) f := by
  -- On the definitions: the children of one after those of the others are one list.
  induction ds generalizing f with
  | nil => rfl
  | cons d ds ih =>
    have hstep : extend path (d :: ds) f = extendBy path d.children f >>= extend path ds := by
      rw [extend, List.foldlM_cons]
      rfl
    have hrest : extend path ds = extendBy path (ds.flatMap (·.children)) := funext ih
    rw [hstep, hrest, List.flatMap_cons, extendBy_append]

/-- Extending a path of names queues each of its extensions that was not seen before, once. -/
theorem extendBy_spec {path : List Value} (hpath : ∀ v ∈ path, v.IsName) (children : List Value)
    (hchildren : ∀ c ∈ children, ∃ s, c = .str s) (f : Frontier) :
    ∃ new, extendBy path children f = .ok ⟨f.waiting ++ new, f.seen ++ new⟩ ∧ new.Nodup ∧
      (∀ p ∈ new, p ∉ f.seen) ∧ (∀ p ∈ new, ∃ c ∈ children, p = c :: path) ∧
      ∀ c ∈ children, c :: path ∈ f.seen ++ new := by
  induction children generalizing f with
  | nil =>
    refine ⟨[], ?_, ?_⟩
    · simp [extendBy]
    · simp
  | cons c rest ih =>
    obtain ⟨s, rfl⟩ := hchildren c List.mem_cons_self
    have hrest : ∀ c ∈ rest, ∃ s, c = .str s :=
      fun c hc => hchildren c (List.mem_cons_of_mem _ hc)
    have hkey : (Value.str s).isKey = true := by simp [Value.isKey]
    have hnames : ∀ v ∈ Value.str s :: path, v.IsName := by
      intro v hv
      rcases List.mem_cons.1 hv with rfl | hv
      · exact Value.isName_str s
      · exact hpath v hv
    have hseen : f.seen.any (Value.sameList (.str s :: path)) = true ↔
        Value.str s :: path ∈ f.seen := by
      rw [List.any_eq_true]
      constructor
      · rintro ⟨q, hq, hsame⟩
        rw [Value.sameList_iff_of_isName hnames] at hsame
        exact hsame ▸ hq
      · intro h
        exact ⟨_, h, (Value.sameList_iff_of_isName hnames).2 rfl⟩
    by_cases hmem : Value.str s :: path ∈ f.seen
    · -- The extension by `s` was seen: nothing is queued for it.
      obtain ⟨new, hnew, hnodup, hfresh, hfrom, hall⟩ := ih hrest f
      refine ⟨new, ?_, hnodup, hfresh, ?_, ?_⟩
      · simp only [extendBy, hkey, hseen.2 hmem, Bool.not_true, Bool.false_eq_true, if_false,
          if_true]
        exact hnew
      · intro p hp
        obtain ⟨c, hc, rfl⟩ := hfrom p hp
        exact ⟨c, List.mem_cons_of_mem _ hc, rfl⟩
      · intro c hc
        rcases List.mem_cons.1 hc with rfl | hc
        · exact List.mem_append_left _ hmem
        · exact hall c hc
    · -- The extension by `s` is new: it is queued and counts as seen from now on.
      have hany : f.seen.any (Value.sameList (.str s :: path)) = false := by
        rw [← Bool.not_eq_true, hseen]
        exact hmem
      obtain ⟨new, hnew, hnodup, hfresh, hfrom, hall⟩ :=
        ih hrest ⟨f.waiting ++ [.str s :: path], f.seen ++ [.str s :: path]⟩
      refine ⟨(.str s :: path) :: new, ?_, ?_, ?_, ?_, ?_⟩
      · simp only [extendBy, hkey, hany, Bool.not_true, Bool.false_eq_true, if_false]
        rw [hnew]
        simp
      · refine List.nodup_cons.2 ⟨?_, hnodup⟩
        intro hin
        exact hfresh _ hin (by simp)
      · intro p hp
        rcases List.mem_cons.1 hp with rfl | hp
        · exact hmem
        · intro hps
          exact hfresh p hp (List.mem_append_left _ hps)
      · intro p hp
        rcases List.mem_cons.1 hp with rfl | hp
        · exact ⟨.str s, List.mem_cons_self, rfl⟩
        · obtain ⟨c, hc, rfl⟩ := hfrom p hp
          exact ⟨c, List.mem_cons_of_mem _ hc, rfl⟩
      · intro c hc
        rcases List.mem_cons.1 hc with rfl | hc
        · simp
        · have hin := hall c hc
          simpa using hin

/-- Extending a path by the definitions of a key, in terms of the children it declares. -/
theorem Textual.extend_spec {g : Graph} (hg : g.Textual) {path : List Value}
    (hpath : ∀ v ∈ path, v.IsName) (key : Value) {ds : List Definition}
    (hds : (g.get? key).getD [] = ds) (f : Frontier) :
    ∃ new, extend path ds f = .ok ⟨f.waiting ++ new, f.seen ++ new⟩ ∧ new.Nodup ∧
      (∀ p ∈ new, p ∉ f.seen) ∧ (∀ p ∈ new, ∃ c, g.Declares key c ∧ p = c :: path) ∧
      ∀ c, g.Declares key c → c :: path ∈ f.seen ++ new := by
  have hchildren : ds.flatMap (·.children) = g.childrenOf key := by
    simp [childrenOf, hds]
  obtain ⟨new, hnew, hnodup, hfresh, hfrom, hall⟩ := extendBy_spec hpath (g.childrenOf key)
    (fun c hc => hg.str_of_mem_allChildren (mem_allChildren hc)) f
  refine ⟨new, ?_, hnodup, hfresh, ?_, ?_⟩
  · rw [extend_eq, hchildren]
    exact hnew
  · intro p hp
    obtain ⟨c, hc, rfl⟩ := hfrom p hp
    exact ⟨c, hg.declares_iff.2 hc, rfl⟩
  · intro c hc
    exact hall c (hg.declares_iff.1 hc)

/-! ## The invariant of the search -/

def trail (route : List Value) (n : Nat) : List Value :=
  (route.take n).reverse

theorem length_trail {route : List Value} {n : Nat} (hn : n ≤ route.length) :
    (trail route n).length = n := by
  simp [trail, hn]

theorem trail_succ {route : List Value} {n : Nat} {key : Value} (h : route[n]? = some key) :
    trail route (n + 1) = key :: trail route n := by
  simp [trail, List.take_add_one, h]

/-- A path follows the first `n` keys of a route and goes on to `c`, each key being a declared child
of the one before it. -/
structure Follows (g : Graph) (route : List Value) (n : Nat) (c : Value) : Prop where
  pos : 0 < n
  le : n ≤ route.length
  chain : (route.take n ++ [c]).IsChain g.Declares

/-- The route leads to the target in `length` keys. -/
def Leads (g : Graph) (route : List Value) (target : Value) (length : Int) : Prop :=
  ∃ n : Nat, length = n + 1 ∧ g.Follows route n target

namespace Follows

variable {g : Graph} {route : List Value} {n : Nat} {key c : Value}

theorem isChain_succ (hkey : route[n]? = some key) :
    (route.take (n + 1) ++ [c]).IsChain g.Declares ↔
      (route.take n ++ [key]).IsChain g.Declares ∧ g.Declares key c := by
  rw [List.take_add_one, hkey, Option.toList_some, List.append_assoc, List.singleton_append,
    List.isChain_append_cons_cons, and_iff_left (List.IsChain.singleton c)]

theorem declares (h : g.Follows route (n + 1) c) (hkey : route[n]? = some key) :
    g.Declares key c :=
  ((isChain_succ hkey).1 h.chain).2

theorem exists_declares (h : g.Follows route n c) : ∃ parent, g.Declares parent c := by
  obtain ⟨m, rfl⟩ : ∃ m, n = m + 1 := ⟨n - 1, by have := h.pos; omega⟩
  have hlt : m < route.length := h.le
  exact ⟨_, h.declares (List.getElem?_eq_getElem hlt)⟩

/-- A key of the route that a path goes on to is not the first one. -/
theorem mem_tail (h : g.Follows route n key) (hkey : route[n]? = some key) : key ∈ route.tail := by
  obtain ⟨m, rfl⟩ : ∃ m, n = m + 1 := ⟨n - 1, by have := h.pos; omega⟩
  have hmem : route.tail[m]? = some key := by rw [List.getElem?_tail, hkey]
  exact List.mem_of_getElem? hmem

/-- A path that follows a route can go on from its last key. -/
theorem extend (h : g.Follows route n key) (hkey : route[n]? = some key) (hc : g.Declares key c) :
    g.Follows route (n + 1) c :=
  ⟨Nat.succ_pos n, (List.getElem?_eq_some_iff.1 hkey).1, (isChain_succ hkey).2 ⟨h.chain, hc⟩⟩

/-- The part of a followed route before its last key is followed too. -/
theorem shorten (h : g.Follows route (n + 1) c) (hn : 0 < n) (hkey : route[n]? = some key) :
    g.Follows route n key :=
  ⟨hn, Nat.le_of_succ_le h.le, ((isChain_succ hkey).1 h.chain).1⟩

end Follows

/-- What holds between two steps of the search for `target` at the end of `length` keys. `tried` are
the paths that left the queue. -/
structure Searching (g : Graph) (route : List Value) (target : Value) (length : Int)
    (tried : List (List Value)) (f : Frontier) : Prop where
  seen_eq : f.seen = tried ++ f.waiting
  nodup : f.seen.Nodup
  follows : ∀ p ∈ f.seen, ∃ n c, p = c :: trail route n ∧ g.Follows route n c
  missed : ∀ n : Nat, n ≤ route.length → length = n + 1 → target :: trail route n ∉ tried
  closed : ∀ (n : Nat) (key c : Value), route[n]? = some key →
    n = 0 ∨ trail route (n + 1) ∈ tried → g.Declares key c → c :: trail route (n + 1) ∈ f.seen

def detours (g : Graph) (route : List Value) : List (List Value) :=
  (List.range route.length).flatMap fun n => g.allChildren.map (· :: trail route (n + 1))

@[simp]
theorem length_detours (g : Graph) (route : List Value) :
    (g.detours route).length = route.length * g.childCount := by
  simp [detours, List.length_flatMap]

theorem Textual.mem_detours {g : Graph} (hg : g.Textual) {route : List Value} {n : Nat} {c : Value}
    (h : g.Follows route n c) : c :: trail route n ∈ g.detours route := by
  obtain ⟨m, rfl⟩ : ∃ m, n = m + 1 := ⟨n - 1, by have := h.pos; omega⟩
  have hlt : m < route.length := h.le
  have hkey : route[m]? = some route[m] := List.getElem?_eq_getElem hlt
  have hc : c ∈ g.allChildren := mem_allChildren (hg.declares_iff.1 (h.declares hkey))
  exact List.mem_flatMap.2 ⟨m, List.mem_range.2 hlt, List.mem_map_of_mem hc⟩

namespace Searching

variable {g : Graph} {route : List Value} {target : Value} {length : Int}
variable {tried : List (List Value)} {f : Frontier}

/-- There are at most as many tried paths as there are detours. -/
theorem length_tried_le (hg : g.Textual) (h : g.Searching route target length tried f) :
    tried.length ≤ route.length * g.childCount := by
  have hnodup : tried.Nodup := by
    have hall := h.nodup
    rw [h.seen_eq] at hall
    exact hall.of_append_left
  have hsub : tried ⊆ g.detours route := by
    intro p hp
    obtain ⟨n, c, rfl, hfollows⟩ := h.follows p (h.seen_eq ▸ List.mem_append_left _ hp)
    exact hg.mem_detours hfollows
  -- Distinct paths in a list of so many are no more than these.
  have hle := (hnodup.subperm hsub).length_le
  rwa [length_detours] at hle

/-- When nothing waits any more, every followed path was tried. -/
theorem mem_tried (h : g.Searching route target length tried f) (hempty : f.waiting = [])
    {n : Nat} {c : Value} (hc : g.Follows route n c) : c :: trail route n ∈ tried := by
  have hseen : f.seen = tried := by
    rw [h.seen_eq, hempty, List.append_nil]
  -- On the length of the path: the trail before its last key is a followed path itself, so it was
  -- tried, and then all its extensions were seen.
  induction n generalizing c with
  | zero => exact absurd hc.pos (Nat.lt_irrefl 0)
  | succ n ih =>
    have hlt : n < route.length := hc.le
    have hkey : route[n]? = some route[n] := List.getElem?_eq_getElem hlt
    rw [← hseen]
    refine h.closed n _ c hkey ?_ (hc.declares hkey)
    rcases Nat.eq_zero_or_pos n with hzero | hpos
    · exact Or.inl hzero
    · right
      rw [trail_succ hkey]
      exact ih (hc.shorten hpos hkey)

/-- A search that runs out of paths has missed nothing. -/
theorem not_leads (h : g.Searching route target length tried f) (hempty : f.waiting = []) :
    ¬ g.Leads route target length := by
  rintro ⟨n, hlength, hfollows⟩
  exact h.missed n hfollows.le hlength (h.mem_tried hempty hfollows)

/-- Dropping a path that is not the answer and does not follow the route. -/
theorem drop {p : List Value} {rest : List (List Value)}
    (h : g.Searching route target length tried f) (hwaiting : f.waiting = p :: rest)
    (hmiss : ∀ n : Nat, n ≤ route.length → length = n + 1 → p ≠ target :: trail route n)
    (hoff : ∀ (n : Nat) (key : Value), route[n]? = some key → 0 < n → p ≠ trail route (n + 1)) :
    g.Searching route target length (tried ++ [p]) { f with waiting := rest } := by
  refine ⟨?_, h.nodup, h.follows, ?_, ?_⟩
  · simp [h.seen_eq, hwaiting]
  · intro n hn hlength hmem
    rcases List.mem_append.1 hmem with hmem | hmem
    · exact h.missed n hn hlength hmem
    · exact hmiss n hn hlength (List.mem_singleton.1 hmem).symm
  -- The dropped path is no trail of the route, so no new extensions have to be there.
  · intro n key c hkey hn hc
    refine h.closed n key c hkey ?_ hc
    rcases hn with hzero | hmem
    · exact Or.inl hzero
    · rcases Nat.eq_zero_or_pos n with hzero | hpos
      · exact Or.inl hzero
      · rcases List.mem_append.1 hmem with hmem | hmem
        · exact Or.inr hmem
        · exact absurd (List.mem_singleton.1 hmem).symm (hoff n key hkey hpos)

/-- Extending a path that follows the route and is not the answer. -/
theorem advance {n : Nat} {key : Value} {rest new : List (List Value)}
    (h : g.Searching route target length tried f)
    (hwaiting : f.waiting = trail route (n + 1) :: rest) (hkey : route[n]? = some key)
    (hfollows : g.Follows route n key)
    (hmiss : ∀ m : Nat, m ≤ route.length → length = m + 1 →
      trail route (n + 1) ≠ target :: trail route m)
    (hnodup : new.Nodup) (hfresh : ∀ p ∈ new, p ∉ f.seen)
    (hfrom : ∀ p ∈ new, ∃ c, g.Declares key c ∧ p = c :: trail route (n + 1))
    (hall : ∀ c, g.Declares key c → c :: trail route (n + 1) ∈ f.seen ++ new) :
    g.Searching route target length (tried ++ [trail route (n + 1)])
      ⟨rest ++ new, f.seen ++ new⟩ := by
  have hlt : n < route.length := (List.getElem?_eq_some_iff.1 hkey).1
  refine ⟨?_, ?_, ?_, ?_, ?_⟩
  · simp [h.seen_eq, hwaiting]
  · refine List.nodup_append.2 ⟨h.nodup, hnodup, ?_⟩
    intro p hp q hq hpq
    exact hfresh q hq (hpq ▸ hp)
  · intro p hp
    rcases List.mem_append.1 hp with hp | hp
    · exact h.follows p hp
    · obtain ⟨c, hc, rfl⟩ := hfrom p hp
      exact ⟨n + 1, c, rfl, hfollows.extend hkey hc⟩
  · intro m hm hlength hmem
    rcases List.mem_append.1 hmem with hmem | hmem
    · exact h.missed m hm hlength hmem
    · exact hmiss m hm hlength (List.mem_singleton.1 hmem).symm
  -- The extensions of the tried path are the new ones, and those of earlier paths were seen before.
  · intro m key' c hkey' hm hc
    by_cases hmn : m = n
    · subst hmn
      have hsame : key' = key := Option.some.inj (hkey'.symm.trans hkey)
      exact hall c (hsame ▸ hc)
    · refine List.mem_append_left _ (h.closed m key' c hkey' ?_ hc)
      rcases hm with hzero | hmem
      · exact Or.inl hzero
      · rcases List.mem_append.1 hmem with hmem | hmem
        · exact Or.inr hmem
        · -- Trails of different lengths differ.
          have hlen := congrArg List.length (List.mem_singleton.1 hmem)
          have hltm : m < route.length := (List.getElem?_eq_some_iff.1 hkey').1
          rw [length_trail hltm, length_trail hlt] at hlen
          omega

end Searching

/-! ## The answer -/

/-- The keys that the search may have to look up have entries wherever they are declared. -/
def Covers (g : Graph) (route : List Value) (target : Value) : Prop :=
  ∀ key, key = target ∨ key ∈ route.tail → (∃ parent, g.Declares parent key) → g.contains key

def Answers (g : Graph) (route : List Value) (target : Value) (length : Int)
    (ds : List Definition) : Prop :=
  g.Leads route target length ∧ g.get? target = some ds ∨
    ¬ g.Leads route target length ∧ ds = []

/-- A key that the search may have to look up is declared as a child and has no entry. -/
def Lacks (g : Graph) (route : List Value) (target key : Value) : Prop :=
  (key = target ∨ key ∈ route.tail) ∧ (∃ parent, g.Declares parent key) ∧ g.contains key = false

/-- What the search may come to: the right answer, or a declared key without an entry. -/
def Concludes (g : Graph) (route : List Value) (target : Value) (length : Int) :
    Except GraphFault (List Definition) → Prop
  | .ok ds => g.Answers route target length ds
  | .error fault => ∃ key, fault = .undefinedKey key ∧ g.Lacks route target key

theorem exists_definitions {g : Graph} {key : Value} (h : g.contains key = true) :
    ∃ ds, g.get? key = some ds ∧ g.definitions key = .ok ds := by
  obtain ⟨ds, hds⟩ := Option.isSome_iff_exists.1 h
  exact ⟨ds, hds, by simp [definitions, hds]⟩

/-- Looking a key up gives its definitions, or says that it has no entry. -/
theorem definitions_cases (g : Graph) (key : Value) :
    (∃ ds, g.get? key = some ds ∧ g.definitions key = .ok ds) ∨
      g.contains key = false ∧ g.definitions key = .error (.undefinedKey key) := by
  cases hget : g.get? key with
  | some ds => exact Or.inl ⟨ds, rfl, by rw [definitions, hget]⟩
  | none => exact Or.inr ⟨by rw [contains, hget]; rfl, by rw [definitions, hget]⟩

section Steps

variable {g : Graph} {route : List Value} {target : Value} {length : Int} {fuel : Nat}
variable {f : Frontier} {last : Value} {before : List Value} {rest : List (List Value)}

/-- A path of the wanted length that ends in the target is the answer. -/
theorem searchFrom_hit (hwaiting : f.waiting = (last :: before) :: rest)
    (hlength : length = (before.length : Int) + 1) (hlast : Value.same last target = true) :
    g.searchFrom route target length (fuel + 1) f = g.definitions last := by
  have htest : (Int.ofNat (before.length + 1) == length) = true := by
    simp [hlength]
  simp only [searchFrom, hwaiting, htest, hlast, Bool.and_self, if_true]

/-- A path that is not the answer and does not follow the route is dropped. -/
theorem searchFrom_drop (hwaiting : f.waiting = (last :: before) :: rest)
    (hmiss : ¬ (length = (before.length : Int) + 1 ∧ Value.same last target = true))
    (hoff : ∀ key, route[before.length]? = some key → Value.same last key = false) :
    g.searchFrom route target length (fuel + 1) f =
      g.searchFrom route target length fuel { f with waiting := rest } := by
  have htest : (Int.ofNat (before.length + 1) == length && Value.same last target) = false := by
    rw [← Bool.not_eq_true, Bool.and_eq_true, beq_iff_eq]
    rintro ⟨hlength, hlast⟩
    exact hmiss ⟨by simpa using hlength.symm, hlast⟩
  simp only [searchFrom, hwaiting, htest, Nat.add_sub_cancel, Bool.false_eq_true, if_false]
  cases hkey : route[before.length]? with
  | none => simp
  | some key => simp [hoff key hkey]

/-- A path that is not the answer and follows the route is extended. -/
theorem searchFrom_on {key : Value} (hwaiting : f.waiting = (last :: before) :: rest)
    (hmiss : ¬ (length = (before.length : Int) + 1 ∧ Value.same last target = true))
    (hkey : route[before.length]? = some key) (hsame : Value.same last key = true) :
    g.searchFrom route target length (fuel + 1) f =
      g.definitions last >>= fun ds => extend (last :: before) ds { f with waiting := rest } >>=
        g.searchFrom route target length fuel := by
  have htest : (Int.ofNat (before.length + 1) == length && Value.same last target) = false := by
    rw [← Bool.not_eq_true, Bool.and_eq_true, beq_iff_eq]
    rintro ⟨hlength, hlast⟩
    exact hmiss ⟨by simpa using hlength.symm, hlast⟩
  simp only [searchFrom, hwaiting, htest, Nat.add_sub_cancel, Bool.false_eq_true, if_false, hkey,
    hsame, if_true]

end Steps

/-- The loop of the search without a bound on its rounds: `Ends f outcome` says that from the
frontier `f` it comes to an end, and with what. -/
inductive Ends (g : Graph) (route : List Value) (target : Value) (length : Int) :
    Frontier → Except GraphFault (List Definition) → Prop where
  | dry {f : Frontier} : f.waiting = [] → Ends g route target length f (.ok [])
  | hit {f : Frontier} {last : Value} {before : List Value} {rest : List (List Value)} :
      f.waiting = (last :: before) :: rest → length = (before.length : Int) + 1 →
      Value.same last target = true → Ends g route target length f (g.definitions last)
  | drop {f : Frontier} {last : Value} {before : List Value} {rest : List (List Value)}
      {outcome : Except GraphFault (List Definition)} :
      f.waiting = (last :: before) :: rest →
      ¬ (length = (before.length : Int) + 1 ∧ Value.same last target = true) →
      (∀ key, route[before.length]? = some key → Value.same last key = false) →
      Ends g route target length { f with waiting := rest } outcome →
      Ends g route target length f outcome
  | lost {f : Frontier} {last key : Value} {before : List Value} {rest : List (List Value)}
      {fault : GraphFault} :
      f.waiting = (last :: before) :: rest →
      ¬ (length = (before.length : Int) + 1 ∧ Value.same last target = true) →
      route[before.length]? = some key → Value.same last key = true →
      g.definitions last = .error fault → Ends g route target length f (.error fault)
  | extend {f next : Frontier} {last key : Value} {before : List Value}
      {rest : List (List Value)} {ds : List Definition}
      {outcome : Except GraphFault (List Definition)} :
      f.waiting = (last :: before) :: rest →
      ¬ (length = (before.length : Int) + 1 ∧ Value.same last target = true) →
      route[before.length]? = some key → Value.same last key = true →
      g.definitions last = .ok ds →
      Graph.extend (last :: before) ds { f with waiting := rest } = .ok next →
      Ends g route target length next outcome → Ends g route target length f outcome

variable {g : Graph} {route : List Value} {target : Value} {length : Int}

/-- The trails that a followed path can be equal to. -/
theorem Follows.cons_eq_trail {n m : Nat} {last key : Value} (h : g.Follows route n last)
    (hkey : route[m]? = some key) (heq : last :: trail route n = trail route (m + 1)) :
    m = n ∧ last = key := by
  have hlt : m < route.length := (List.getElem?_eq_some_iff.1 hkey).1
  have hlen := congrArg List.length heq
  rw [List.length_cons, length_trail h.le, length_trail hlt] at hlen
  rw [trail_succ hkey] at heq
  exact ⟨by omega, (List.cons.inj heq).1⟩

/-- A search with enough rounds comes to an end by itself, and with the right outcome. -/
theorem searchFrom_spec (hg : g.Textual) (hroute : ∀ v ∈ route, v.IsName) (fuel : Nat)
    (tried : List (List Value)) (f : Frontier) (h : g.Searching route target length tried f)
    (hfuel : route.length * g.childCount < tried.length + fuel) :
    g.Ends route target length f (g.searchFrom route target length fuel f) ∧
      g.Concludes route target length (g.searchFrom route target length fuel f) := by
  -- On the fuel: a round tries one path more, and there are no more paths than detours.
  induction fuel generalizing tried f with
  | zero =>
    have hle := h.length_tried_le hg
    omega
  | succ fuel ih =>
    cases hwaiting : f.waiting with
    | nil =>
      have hdry : g.searchFrom route target length (fuel + 1) f = .ok [] := by
        simp [searchFrom, hwaiting]
      rw [hdry]
      exact ⟨.dry hwaiting, Or.inr ⟨h.not_leads hwaiting, rfl⟩⟩
    | cons p rest =>
      have hp : p ∈ f.seen := by
        rw [h.seen_eq, hwaiting]
        simp
      obtain ⟨n, last, rfl, hfollows⟩ := h.follows p hp
      have hlen : (trail route n).length = n := length_trail hfollows.le
      have hparent : ∃ parent, g.Declares parent last := hfollows.exists_declares
      have hname : last.IsName := hg.isName_of_declares hparent
      have htried : route.length * g.childCount <
          (tried ++ [last :: trail route n]).length + fuel := by
        simp only [List.length_append, List.length_singleton]
        omega
      by_cases hhit : length = ((trail route n).length : Int) + 1 ∧ last = target
      · -- The path has the wanted length and ends in the target.
        obtain ⟨hlength, rfl⟩ := hhit
        have hsame : Value.same last last = true := (Value.same_iff_of_isName hname).2 rfl
        rw [searchFrom_hit hwaiting hlength hsame]
        refine ⟨.hit hwaiting hlength hsame, ?_⟩
        rcases g.definitions_cases last with ⟨ds, hget, hds⟩ | ⟨hnone, hds⟩
        · rw [hds]
          exact Or.inl ⟨⟨n, hlen ▸ hlength, hfollows⟩, hget⟩
        · rw [hds]
          exact ⟨last, rfl, Or.inl rfl, hparent, hnone⟩
      · have hmiss : ∀ m : Nat, m ≤ route.length → length = m + 1 →
            last :: trail route n ≠ target :: trail route m := by
          intro m hm hlength heq
          obtain ⟨hlast, htrail⟩ := List.cons.inj heq
          have hmn : (trail route n).length = m := htrail ▸ length_trail hm
          exact hhit ⟨by rw [hmn]; exact hlength, hlast⟩
        -- From here on the search compares by `Value.same`, which is equality on names.
        rw [← Value.same_iff_of_isName hname] at hhit
        by_cases hon : route[n]? = some last
        · -- The path follows the route: its extensions are queued.
          have htrail : trail route (n + 1) = last :: trail route n := trail_succ hon
          have hkey : route[(trail route n).length]? = some last := by rwa [hlen]
          have hsame : Value.same last last = true := (Value.same_iff_of_isName hname).2 rfl
          rw [searchFrom_on hwaiting hhit hkey hsame]
          rcases g.definitions_cases last with ⟨ds, hget, hds⟩ | ⟨hnone, hds⟩
          · have hnames : ∀ v ∈ last :: trail route n, v.IsName := by
              intro v hv
              rcases List.mem_cons.1 hv with rfl | hv
              · exact hname
              · exact hroute v (List.mem_of_mem_take (List.mem_reverse.1 hv))
            obtain ⟨new, hnew, hnodup, hfresh, hfrom, hall⟩ := hg.extend_spec hnames last
              (by rw [hget, Option.getD_some])
              { f with waiting := rest }
            have hnext := h.advance (htrail ▸ hwaiting) hon hfollows (by rwa [htrail]) hnodup
              hfresh (by rwa [htrail]) (by rwa [htrail])
            obtain ⟨hends, hconcludes⟩ := ih _ _ hnext (by rwa [htrail])
            have hrun : (g.definitions last >>= fun ds =>
                Graph.extend (last :: trail route n) ds { f with waiting := rest } >>=
                  g.searchFrom route target length fuel) =
                g.searchFrom route target length fuel ⟨rest ++ new, f.seen ++ new⟩ := by
              rw [hds]
              exact congrArg (· >>= g.searchFrom route target length fuel) hnew
            rw [hrun]
            exact ⟨.extend hwaiting hhit hkey hsame hds hnew hends, hconcludes⟩
          · rw [hds]
            exact ⟨.lost hwaiting hhit hkey hsame hds,
              last, rfl, Or.inr (hfollows.mem_tail hon), hparent, hnone⟩
        · -- The path leaves the route with its last key: it is dropped.
          have hoff : ∀ (m : Nat) (key : Value), route[m]? = some key → 0 < m →
              last :: trail route n ≠ trail route (m + 1) := by
            intro m key hkey _ heq
            obtain ⟨rfl, rfl⟩ := hfollows.cons_eq_trail hkey heq
            exact hon hkey
          have hleaves : ∀ key, route[(trail route n).length]? = some key →
              Value.same last key = false := by
            intro key hkey
            rw [← Bool.not_eq_true, Value.same_iff_of_isName hname]
            rintro rfl
            exact hon (hlen ▸ hkey)
          obtain ⟨hends, hconcludes⟩ := ih _ _ (h.drop hwaiting hmiss hoff) htried
          rw [searchFrom_drop hwaiting hhit hleaves]
          exact ⟨.drop hwaiting hhit hleaves hends, hconcludes⟩

/-- The search starts with the children of the topmost key. -/
theorem Searching.start (hg : g.Textual) {top : Value} (htop : top.IsName) (rest : List Value)
    (target : Value) (length : Int) :
    ∃ f, extend [top] ((g.get? top).getD []) ⟨[], []⟩ = .ok f ∧
      g.Searching (top :: rest) target length [] f := by
  have hnames : ∀ v ∈ [top], v.IsName := by
    intro v hv
    rw [List.mem_singleton.1 hv]
    exact htop
  obtain ⟨new, hnew, hnodup, -, hfrom, hall⟩ := hg.extend_spec hnames top rfl ⟨[], []⟩
  refine ⟨⟨new, new⟩, hnew, rfl, hnodup, ?_, ?_, ?_⟩
  · intro p hp
    obtain ⟨c, hc, rfl⟩ := hfrom p hp
    refine ⟨1, c, rfl, Nat.one_pos, by simp, ?_⟩
    simpa using hc
  · intro n _ _ hmem
    cases hmem
  -- Nothing was tried yet: only the topmost key has its extensions.
  · intro n key c hkey hn hc
    rcases hn with rfl | hmem
    · obtain rfl : top = key := by simpa using hkey
      exact hall c hc
    · cases hmem

/-- The search comes to an end within its bound, and with the right outcome. -/
theorem search_concludes (hg : g.Textual) (hroute : ∀ v ∈ route, v.IsName) {top : Value}
    (htop : route.head? = some top) (target : Value) (length : Int) :
    (∃ start, extend [top] ((g.get? top).getD []) ⟨[], []⟩ = .ok start ∧
      g.Ends route target length start (g.search route target length)) ∧
    g.Concludes route target length (g.search route target length) := by
  obtain ⟨rest, rfl⟩ : ∃ rest, route = top :: rest := List.head?_eq_some_iff.1 htop
  obtain ⟨f, hf, hstart⟩ := Searching.start hg (hroute top List.mem_cons_self) rest target length
  have hbound : (top :: rest).length * g.childCount <
      ([] : List (List Value)).length + (((top :: rest).length + 1) * (g.childCount + 1) + 1) := by
    have hle : (top :: rest).length * g.childCount ≤
        ((top :: rest).length + 1) * (g.childCount + 1) :=
      Nat.mul_le_mul (Nat.le_succ _) (Nat.le_succ _)
    simp only [List.length_nil]
    omega
  obtain ⟨hends, hconcludes⟩ := searchFrom_spec hg hroute _ [] f hstart hbound
  have hrun : g.search (top :: rest) target length = g.searchFrom (top :: rest) target length
      (((top :: rest).length + 1) * (g.childCount + 1) + 1) f := by
    rw [search, hf]
    rfl
  rw [hrun]
  exact ⟨⟨f, hf, hends⟩, hconcludes⟩

/-- The search gives the definitions of the target if the route leads there, and none otherwise. -/
theorem search_spec (hg : g.Textual) (hroute : ∀ v ∈ route, v.IsName) (hne : route ≠ [])
    (hcovers : g.Covers route target) (length : Int) :
    ∃ ds, g.search route target length = .ok ds ∧ g.Answers route target length ds := by
  obtain ⟨-, hconcludes⟩ :=
    search_concludes hg hroute (List.head?_eq_some_head hne) target length
  cases hsearch : g.search route target length with
  | ok ds =>
    rw [hsearch] at hconcludes
    exact ⟨ds, rfl, hconcludes⟩
  | error fault =>
    rw [hsearch] at hconcludes
    obtain ⟨key, -, hwhere, hparent, hnone⟩ := hconcludes
    rw [hcovers key hwhere hparent] at hnone
    cases hnone

end Graph
end YamlServer
