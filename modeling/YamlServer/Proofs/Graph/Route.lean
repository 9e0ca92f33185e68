import YamlServer.Proofs.Graph.Search
import YamlServer.Proofs.Outcome

/-!
# Routes the search accepts

The search takes a route, a target and the number of keys of the path that it looks for. Key by key,
the path it accepts is the route down to the key before the last, each key a declared child of the
one above it, and then the target, a declared child of that key. Where no child is without an entry
nothing can stop the search; elsewhere it is stopped only by such a child, which is the target or a
key of the route below the topmost one.

* `Graph.covers_of_dangling`: a graph without dangling children has all entries that are needed.
* `Graph.search_by_route`: the outcome of the search.
-/

namespace YamlServer
namespace Graph

open Outcome

variable {g : Graph} {route : List Value} {target : Value} {length : Int}

/-! ## Places on a route -/

/-- The key at a place of the route has the key at the next place among its declared children. -/
def StepsAt (g : Graph) (route : List Value) (i : Nat) : Prop :=
  ∃ above ∈ route[i - 1]?, ∃ key ∈ route[i]?, g.Declares above key

/-- There is a path of `length` keys: the route up to its place `length - 2`, and then the
target. -/
structure Connects (g : Graph) (route : List Value) (target : Value) (length : Int) : Prop where
  two_le : 2 ≤ length
  length_le : length ≤ route.length + 1
  steps : ∀ i : Nat, 1 ≤ i → (i : Int) ≤ length - 2 → g.StepsAt route i
  last : ∃ above ∈ route[(length - 2).toNat]?, g.Declares above target

theorem Follows.stepsAt {n i : Nat} {c : Value} (h : g.Follows route (n + 1) c) (hpos : 1 ≤ i)
    (hle : i ≤ n) : g.StepsAt route i := by
  -- On the length: the last step is that of the shorter route, or it comes before it.
  induction n generalizing c with
  | zero => omega
  | succ n ih =>
    have hlt : n + 1 < route.length := h.le
    have hkey : route[n + 1]? = some route[n + 1] := List.getElem?_eq_getElem hlt
    have hshort : g.Follows route (n + 1) route[n + 1] := h.shorten (Nat.succ_pos n) hkey
    rcases Nat.eq_or_lt_of_le hle with rfl | hlt'
    · have habove : route[n]? = some route[n] :=
        List.getElem?_eq_getElem (Nat.lt_of_succ_lt hlt)
      exact ⟨_, habove, _, hkey, hshort.declares habove⟩
    · exact ih hshort (Nat.le_of_lt_succ hlt')

/-- A route that goes from place to place is followed. -/
theorem follows_of_stepsAt {n : Nat} {c above : Value}
    (hsteps : ∀ i, 1 ≤ i → i ≤ n → g.StepsAt route i) (habove : route[n]? = some above)
    (hc : g.Declares above c) : g.Follows route (n + 1) c := by
  induction n generalizing c above with
  | zero =>
    have hlt : 0 < route.length := (List.getElem?_eq_some_iff.1 habove).1
    refine ⟨Nat.one_pos, hlt, ?_⟩
    rw [List.take_add_one, habove]
    simpa using hc
  | succ n ih =>
    obtain ⟨above', habove', key, hkey, hstep⟩ := hsteps (n + 1) (Nat.le_add_left 1 n)
      (Nat.le_refl _)
    obtain rfl : key = above := Option.some.inj (hkey.symm.trans habove)
    have hshort := ih (fun i hi hin => hsteps i hi (Nat.le_succ_of_le hin)) habove' hstep
    exact hshort.extend habove hc

/-- The path that the invariant of the search speaks of, by its places on the route. -/
theorem leads_iff_connects : g.Leads route target length ↔ g.Connects route target length := by
  constructor
  · rintro ⟨n, rfl, hfollows⟩
    obtain ⟨m, rfl⟩ : ∃ m, n = m + 1 := ⟨n - 1, by have := hfollows.pos; omega⟩
    have hle : m + 1 ≤ route.length := hfollows.le
    have habove : route[m]? = some route[m] := List.getElem?_eq_getElem hle
    have hplace : (((m + 1 : Nat) : Int) + 1 - 2).toNat = m := by omega
    refine ⟨by omega, by omega, ?_, ?_⟩
    · intro i hi hin
      exact hfollows.stepsAt hi (by omega)
    · rw [hplace]
      exact ⟨_, habove, hfollows.declares habove⟩
  · intro h
    have htwo := h.two_le
    obtain ⟨above, habove, hlast⟩ := h.last
    refine ⟨(length - 2).toNat + 1, by omega, follows_of_stepsAt ?_ habove hlast⟩
    intro i hi hin
    exact h.steps i hi (by omega)

/-! ## Children without an entry -/

theorem contains_of_danglingOf {parent : Value} {children : List Value}
    (h : danglingOf g parent children = .ok []) {c : Value} (hc : c ∈ children) :
    g.contains c = true := by
  induction children with
  | nil => cases hc
  | cons first rest ih =>
    unfold danglingOf at h
    split at h
    · obtain ⟨more, hmore, hlast⟩ := bind_eq_ok.1 h
      cases hfirst : g.contains first with
      | false =>
        rw [hfirst] at hlast
        cases hlast
      | true =>
        rw [hfirst] at hlast
        cases hlast
        rcases List.mem_cons.1 hc with rfl | hc
        · exact hfirst
        · exact ih hmore hc
    · cases h

/-- Every declared child of a graph without dangling children has an entry. -/
theorem contains_of_dangling (hnone : g.dangling = .ok []) {c : Value} (hc : c ∈ g.allChildren) :
    g.contains c = true := by
  obtain ⟨e, he, hc⟩ := List.mem_flatMap.1 hc
  obtain ⟨d, hd, hc⟩ := List.mem_flatMap.1 hc
  obtain ⟨parts, hparts, hlast⟩ := bind_eq_ok.1 hnone
  have hempty : parts.flatten.flatten = [] := Except.ok.inj hlast
  obtain ⟨part, hpart, hown⟩ := (mapM_eq_ok hparts).2 e he
  obtain ⟨found, hfound, hdangling⟩ := (mapM_eq_ok hown).2 d hd
  have hnil : found = [] :=
    List.flatten_eq_nil_iff.1 hempty found (List.mem_flatten_of_mem hpart hfound)
  exact contains_of_danglingOf (hnil ▸ hdangling) hc

theorem covers_of_dangling (hg : g.Textual) (hnone : g.dangling = .ok []) (route : List Value)
    (target : Value) : g.Covers route target := by
  rintro key - ⟨parent, hparent⟩
  exact contains_of_dangling hnone (mem_allChildren (hg.declares_iff.1 hparent))

/-! ## The outcome -/

/-- The search comes to an end by itself. Without dangling children it gives the definitions of the
target if the route connects to it, and none otherwise; and whenever it fails, the fault names a
declared child without an entry, which is the target or a key of the route below the first. -/
theorem search_by_route (hg : g.Textual) (hroute : ∀ v ∈ route, v.IsName) {top : Value}
    (htop : route.head? = some top) (target : Value) (length : Int) :
    (∃ start, extend [top] ((g.get? top).getD []) ⟨[], []⟩ = .ok start ∧
      g.Ends route target length start (g.search route target length)) ∧
    (g.dangling = .ok [] → ∃ ds, g.search route target length = .ok ds ∧
      (g.Connects route target length → g.get? target = some ds) ∧
      (¬ g.Connects route target length → ds = [])) ∧
    ∀ fault, g.search route target length = .error fault → ∃ key, fault = .undefinedKey key ∧
      (key = target ∨ key ∈ route.tail) ∧ (∃ parent, g.Declares parent key) ∧
      g.contains key = false := by
  obtain ⟨hends, hconcludes⟩ := search_concludes hg hroute htop target length
  refine ⟨hends, ?_, ?_⟩
  · intro hnone
    have hne : route ≠ [] := by
      rintro rfl
      cases htop
    obtain ⟨ds, hds, hanswer⟩ :=
      search_spec hg hroute hne (covers_of_dangling hg hnone route target) length
    refine ⟨ds, hds, ?_⟩
    rw [Answers, leads_iff_connects] at hanswer
    rcases hanswer with ⟨hyes, hget⟩ | ⟨hno, hempty⟩
    · exact ⟨fun _ => hget, fun hno => absurd hyes hno⟩
    · exact ⟨fun hyes => absurd hyes hno, fun _ => hempty⟩
  · intro fault hfault
    rw [hfault] at hconcludes
    exact hconcludes

def folderGraph : Graph :=
  ⟨[(.str "folder", [⟨.object, [.str "file"]⟩, ⟨.object, [.str "folder", .str "file"]⟩]),
    (.str "file", [⟨.string, []⟩])]⟩

/-- Folders that also hold links, which have no entry. -/
def linkGraph : Graph :=
  ⟨[(.str "folder", [⟨.object, [.str "folder", .str "link"]⟩])]⟩

theorem search_by_route_folders :
    folderGraph.Textual ∧ folderGraph.dangling = .ok [] ∧
      folderGraph.Connects [.str "folder", .str "folder"] (.str "file") 3 ∧
      (∃ ds, folderGraph.search [.str "folder", .str "folder"] (.str "file") 3 = .ok ds ∧
        ds.map (·.type) = [.string]) ∧
      ¬ folderGraph.Connects [.str "folder", .str "file"] (.str "folder") 3 ∧
      folderGraph.search [.str "folder", .str "file"] (.str "folder") 3 = .ok [] ∧
      linkGraph.Textual ∧
      linkGraph.search [.str "folder", .str "link"] (.str "folder") 3 =
        .error (.undefinedKey (.str "link")) ∧
      linkGraph.contains (.str "link") = false := by
  have hfolder : folderGraph.Textual := by
    constructor <;> simp [folderGraph]
  have hlink : linkGraph.Textual := by
    constructor <;> simp [linkGraph]
  have hnone : folderGraph.dangling = .ok [] := by with_unfolding_all rfl
  have hnames : ∀ a b : String, ∀ v ∈ [Value.str a, Value.str b], v.IsName := by
    intro a b v hv
    rcases List.mem_pair.1 hv with rfl | rfl
    · exact Value.isName_str a
    · exact Value.isName_str b
  have hyes : folderGraph.Connects [.str "folder", .str "folder"] (.str "file") 3 := by
    refine ⟨by decide, by decide, ?_, .str "folder", rfl, by decide +kernel⟩
    intro i hpos hle
    obtain rfl : i = 1 := by omega
    exact ⟨.str "folder", rfl, .str "folder", rfl, by decide +kernel⟩
  have hno : ¬ folderGraph.Connects [.str "folder", .str "file"] (.str "folder") 3 := by
    intro h
    obtain ⟨above, habove, hdeclares⟩ := h.last
    cases habove
    exact absurd hdeclares (by decide +kernel)
  obtain ⟨-, hfound, -⟩ := search_by_route hfolder (hnames "folder" "folder") rfl (.str "file") 3
  obtain ⟨-, hmissed, -⟩ := search_by_route hfolder (hnames "folder" "file") rfl (.str "folder") 3
  obtain ⟨-, -, hfails⟩ := search_by_route hlink (hnames "folder" "link") rfl (.str "folder") 3
  obtain ⟨ds, hds, hget, -⟩ := hfound hnone
  obtain ⟨ds', hds', -, hempty⟩ := hmissed hnone
  have hfault : linkGraph.search [.str "folder", .str "link"] (.str "folder") 3 =
      .error (.undefinedKey (.str "link")) := by with_unfolding_all rfl
  obtain ⟨key, hkey, -, -, hlacks⟩ := hfails _ hfault
  cases hkey
  have hfile : folderGraph.get? (.str "file") = some [⟨.string, []⟩] := by
    with_unfolding_all rfl
  have hstring : ds = [⟨.string, []⟩] := Option.some.inj ((hget hyes).symm.trans hfile)
  refine ⟨hfolder, hnone, hyes, ⟨ds, hds, ?_⟩, hno, hempty hno ▸ hds', hlink, hfault, hlacks⟩
  rw [hstring]
  rfl

end Graph
end YamlServer
