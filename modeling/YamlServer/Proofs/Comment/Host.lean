import Mathlib.Data.List.Nodup
import Mathlib.Data.List.Perm.Basic
import YamlServer.Proofs.Comment.Scan

/-!
# Comments are shared out

The comments of a text go to its documents in consecutive blocks, and the comments of a document to
its hosts. Neither step loses a comment or hands it out twice.

* `Comment.hosts`: the hosts of a document.
* `Comment.length_inline_le_one`: a node has one inline comment at most.
* `Attached.blockLines_joinLines`: lines that are joined to one text can be told apart in it.
-/

namespace YamlServer
namespace Comment

open Yaml
open scoped List

/-! ## Blocks -/

/-- In a row of comments those in front of an offset come first. -/
theorem filter_append_drop {comments : List Comment} (h : comments.Pairwise Precedes) (stop : Nat) :
    comments.filter (·.offset < stop) ++
      comments.drop (comments.filter (·.offset < stop)).length = comments := by
  induction comments with
  | nil => rfl
  | cons c rest ih =>
    rcases List.pairwise_cons.1 h with ⟨hfirst, hrest⟩
    by_cases hc : c.offset < stop
    · simpa [hc] using ih hrest
    · have hnone : rest.filter (·.offset < stop) = [] := by
        simp only [List.filter_eq_nil_iff, decide_eq_true_eq]
        intro c' hc' hlt
        exact hc (Nat.lt_trans (hfirst c' hc').1 hlt)
      simp [hc, hnone]

/-- A document that is not the last one takes the comments in front of its end. -/
theorem distribute_cons {stop : Nat} {rest : List Nat} (hrest : rest ≠ [])
    (comments : List Comment) :
    distribute (stop :: rest) comments = comments.filter (·.offset < stop) ::
      distribute rest (comments.drop (comments.filter (·.offset < stop)).length) := by
  cases rest with
  | nil => exact absurd rfl hrest
  | cons next more => rfl

/-- No comment is lost between documents, and none is given to two of them. -/
theorem flatten_distribute {stops : List Nat} {comments : List Comment}
    (h : comments.Pairwise Precedes) (hne : stops ≠ []) :
    (distribute stops comments).flatten = comments := by
  induction stops generalizing comments with
  | nil => exact absurd rfl hne
  | cons stop rest ih =>
    by_cases hrest : rest = []
    · subst hrest
      simp [distribute]
    · calc
        (distribute (stop :: rest) comments).flatten
            = comments.filter (·.offset < stop) ++
                comments.drop (comments.filter (·.offset < stop)).length := by
              rw [distribute_cons hrest, List.flatten_cons, ih h.drop hrest]
        _ = comments := filter_append_drop h stop

/-- The block of a document: of the comments not taken before, those in front of its end, or all of
them if it is the last one. -/
theorem getElem?_distribute {stops : List Nat} {comments : List Comment} {i stop : Nat}
    (hstop : stops[i]? = some stop) :
    (distribute stops comments)[i]? = some
      (let left := comments.drop ((distribute stops comments).take i).flatten.length
       if i + 1 = stops.length then left else left.filter (·.offset < stop)) := by
  induction stops generalizing comments i with
  | nil => cases hstop
  | cons first rest ih =>
    by_cases hrest : rest = []
    · subst hrest
      cases i with
      | zero => simp [distribute]
      | succ i => cases hstop
    · rw [distribute_cons hrest]
      cases i with
      | zero =>
        cases hstop
        simp [hrest]
      | succ i =>
        -- What the first document takes is gone for all later ones.
        have hlater := @ih (comments.drop (comments.filter (·.offset < first)).length) i hstop
        rw [List.drop_drop] at hlater
        simpa using hlater

/-- What is left behind those in front of an offset is not in front of it. -/
theorem stop_le_of_mem_drop {comments : List Comment} (h : comments.Pairwise Precedes) {stop : Nat}
    {c : Comment} (hc : c ∈ comments.drop (comments.filter (·.offset < stop)).length) :
    stop ≤ c.offset := by
  by_contra hlt
  have hmem : c ∈ comments.filter (·.offset < stop) :=
    List.mem_filter.2 ⟨List.mem_of_mem_drop hc, decide_eq_true (Nat.lt_of_not_le hlt)⟩
  -- Then it would come twice in the row.
  rw [← filter_append_drop h stop] at h
  exact Nat.lt_irrefl _ ((List.pairwise_append.1 h).2.2 c hmem c hc).1

/-- The comments of a document stand behind the ends of those before it, and in front of its own end
if another one follows. -/
theorem bounds_of_mem_distribute {stops : List Nat} {comments block : List Comment} {i : Nat}
    {c : Comment} (h : comments.Pairwise Precedes)
    (hblock : (distribute stops comments)[i]? = some block) (hc : c ∈ block) :
    (∀ j stop, j < i → stops[j]? = some stop → stop ≤ c.offset) ∧
      ∀ stop, stops[i]? = some stop → i + 1 < stops.length → c.offset < stop := by
  induction stops generalizing comments i with
  | nil => cases hblock
  | cons first rest ih =>
    by_cases hrest : rest = []
    · subst hrest
      cases i with
      | zero =>
        refine ⟨fun j stop hj => absurd hj (Nat.not_lt_zero j), fun stop _ hlt => ?_⟩
        exact absurd hlt (Nat.lt_irrefl _)
      | succ i => cases hblock
    · rw [distribute_cons hrest] at hblock
      cases i with
      | zero =>
        cases hblock
        refine ⟨fun j stop hj => absurd hj (Nat.not_lt_zero j), ?_⟩
        intro stop hstop _
        cases hstop
        exact of_decide_eq_true (List.mem_filter.1 hc).2
      | succ i =>
        rcases ih h.drop hblock with ⟨hbehind, hbefore⟩
        constructor
        · intro j stop hj hstop
          cases j with
          | zero =>
            cases hstop
            refine stop_le_of_mem_drop h ?_
            rw [← flatten_distribute h.drop hrest]
            exact List.mem_flatten.2 ⟨block, List.mem_of_getElem? hblock, hc⟩
          | succ j => exact hbehind j stop (Nat.lt_of_succ_lt_succ hj) hstop
        · intro stop hstop hlt
          exact hbefore stop hstop (Nat.lt_of_succ_lt_succ hlt)

/-! ## Hosts -/

/-- The hosts at nodes: each node has one in front of it and one on its line. -/
def nodeHosts (nodes : List Node) : List Host :=
  nodes.flatMap fun n => [.before n.id, .inline n.id]

def hosts (nodes : List Node) : List Host :=
  .leading :: .trailing :: nodeHosts nodes

theorem nodup_nodeHosts {nodes : List Node} (h : (nodes.map Node.id).Nodup) :
    (nodeHosts nodes).Nodup := by
  induction nodes with
  | nil => exact List.nodup_nil
  | cons n rest ih =>
    rcases List.nodup_cons.1 h with ⟨hfresh, hrest⟩
    have hbelow : ∀ m ∈ rest, ¬ n.id = m.id := by
      intro m hm heq
      exact hfresh (heq ▸ List.mem_map_of_mem hm)
    have hmore : (rest.flatMap fun m => [Host.before m.id, Host.inline m.id]).Nodup := ih hrest
    simpa [nodeHosts] using ⟨hbelow, hmore⟩

theorem nodup_hosts {nodes : List Node} (h : (nodes.map Node.id).Nodup) : (hosts nodes).Nodup := by
  simpa [hosts, nodeHosts] using nodup_nodeHosts h

theorem mem_of_inlineHostFrom {c : Comment} {best : Option Node} {nodes : List Node} {n : Node}
    (h : inlineHostFrom c best nodes = some n) :
    best = some n ∨ n ∈ nodes ∧ n.span.stop.line = c.line := by
  induction nodes generalizing best with
  | nil => exact Or.inl h
  | cons m rest ih =>
    rcases ih h with hbest | ⟨hmem, hline⟩
    · rcases ite_eq_iff.1 hbest with ⟨hends, hm⟩ | ⟨-, hbest⟩
      · cases hm
        simp only [endsBefore, Bool.and_eq_true, beq_iff_eq] at hends
        exact Or.inr ⟨List.mem_cons_self, hends.1.1⟩
      · exact Or.inl hbest
    · exact Or.inr ⟨List.mem_cons_of_mem _ hmem, hline⟩

/-- What a comment may belong to: its document, a node that ends on its line, or any node. -/
theorem hostOf_cases (root : Option Node) (c : Comment) :
    hostOf root c = .leading ∨ hostOf root c = .trailing ∨
      ∃ r, root = some r ∧ ∃ n ∈ r.walk,
        hostOf root c = .inline n.id ∧ n.span.stop.line = c.line ∨
          hostOf root c = .before n.id := by
  cases root with
  | none => exact Or.inl rfl
  | some r =>
    unfold hostOf
    dsimp only
    split
    · exact Or.inl rfl
    · refine Or.inr ?_
      split
      · cases hhost : inlineHost? r.walk c with
        | none => exact Or.inl rfl
        | some n =>
          rcases mem_of_inlineHostFrom hhost with hnone | ⟨hmem, hline⟩
          · cases hnone
          · exact Or.inr ⟨r, rfl, n, hmem, Or.inl ⟨rfl, hline⟩⟩
      · cases hhost : following? r.walk c.offset with
        | none => exact Or.inl rfl
        | some n => exact Or.inr ⟨r, rfl, n, List.mem_of_find?_eq_some hhost, Or.inr rfl⟩

theorem hostOf_eq_inline {root : Option Node} {c : Comment} {id : Nat}
    (h : hostOf root c = .inline id) :
    ∃ n ∈ root.elim [] Node.walk, n.id = id ∧ n.span.stop.line = c.line := by
  rcases hostOf_cases root c with hhost | hhost | ⟨r, rfl, n, hmem, ⟨hhost, hline⟩ | hhost⟩
  · cases h.symm.trans hhost
  · cases h.symm.trans hhost
  · cases h.symm.trans hhost
    exact ⟨n, hmem, rfl, hline⟩
  · cases h.symm.trans hhost

/-- Every comment goes to one of the hosts of its document. -/
theorem hostOf_mem_hosts (root : Option Node) (c : Comment) :
    hostOf root c ∈ hosts (root.elim [] Node.walk) := by
  rcases hostOf_cases root c with hhost | hhost | ⟨r, rfl, n, hmem, ⟨hhost, -⟩ | hhost⟩
  · simp [hosts, hhost]
  · simp [hosts, hhost]
  · simpa [hosts, nodeHosts, hhost] using ⟨n, hmem, rfl⟩
  · simpa [hosts, nodeHosts, hhost] using ⟨n, hmem, rfl⟩

/-- Sorting things by some keys, each key once, gives those that have one of the keys. -/
theorem perm_flatMap_filter {α κ : Type} [BEq κ] [LawfulBEq κ] (key : α → κ) {keys : List κ}
    (hnodup : keys.Nodup) (xs : List α) :
    (keys.flatMap fun k => xs.filter fun x => key x == k) ~
      xs.filter fun x => keys.contains (key x) := by
  induction keys with
  | nil => simp
  | cons k rest ih =>
    rcases List.nodup_cons.1 hnodup with ⟨hfresh, hrest⟩
    -- The first key is none of the others, so the things are split by it.
    have hsplit := List.filter_append_perm (fun x => key x == k)
      (xs.filter fun x => (k :: rest).contains (key x))
    have hfirst : (xs.filter fun x => (k :: rest).contains (key x)).filter (fun x => key x == k) =
        xs.filter fun x => key x == k := by
      rw [List.filter_filter]
      refine List.filter_congr ?_
      intro x _
      by_cases hx : key x = k
      · simp [hx]
      · simp [hx]
    have hothers :
        (xs.filter fun x => (k :: rest).contains (key x)).filter (fun x => !(key x == k)) =
          xs.filter fun x => rest.contains (key x) := by
      rw [List.filter_filter]
      refine List.filter_congr ?_
      intro x _
      by_cases hx : key x = k
      · simp [hx, hfresh]
      · simp [hx]
    rw [hfirst, hothers] at hsplit
    exact ((ih hrest).append_left _).trans hsplit

/-- A node has one inline comment at most, since two of them would share its last line. -/
theorem length_inline_le_one {root : Option Node} {comments : List Comment}
    (hids : ((root.elim [] Node.walk).map Node.id).Nodup) (h : comments.Pairwise Precedes)
    (id : Nat) : (comments.filter fun c => hostOf root c == .inline id).length ≤ 1 := by
  have hline : ∀ c c', hostOf root c = .inline id → hostOf root c' = .inline id →
      c.line = c'.line := by
    intro c c' hc hc'
    rcases hostOf_eq_inline hc with ⟨n, hn, hid, hstop⟩
    rcases hostOf_eq_inline hc' with ⟨n', hn', hid', hstop'⟩
    have hsame : n = n' := List.inj_on_of_nodup_map hids hn hn' (hid.trans hid'.symm)
    rw [← hstop, ← hstop', hsame]
  have hpairwise := h.filter fun c => hostOf root c == .inline id
  rcases hinline : comments.filter fun c => hostOf root c == .inline id with _ | ⟨c, _ | ⟨c', rest⟩⟩
  · simp
  · simp
  · have hmem : ∀ x ∈ c :: c' :: rest, hostOf root x = .inline id := by
      rw [← hinline]
      intro x hx
      simpa using (List.mem_filter.1 hx).2
    have heq := hline c c' (hmem c (by simp)) (hmem c' (by simp))
    rw [hinline] at hpairwise
    have hprecedes : c.Precedes c' := List.rel_of_pairwise_cons hpairwise List.mem_cons_self
    exact absurd heq (Nat.ne_of_lt hprecedes.2)

end Comment

namespace Attached

/-! ## Lines -/

def blockLines : Option String → List String
  | none => []
  | some text => (text.toList.splitOn '\n').map String.ofList

theorem joinLines_cons (s : String) (rest : List String) :
    joinLines (s :: rest) = some ("\n".intercalate (s :: rest)) := by
  have hfold : rest.foldl (fun acc t => acc ++ "\n" ++ t) s = "\n".intercalate (s :: rest) := by
    induction rest generalizing s with
    | nil => simp
    | cons t rest ih =>
      rw [List.foldl_cons, ih, String.intercalate_cons_append, String.intercalate_cons_cons]
  rw [joinLines, hfold]

theorem blockLines_joinLines {lines : List String} (h : ∀ line ∈ lines, '\n' ∉ line.toList) :
    blockLines (joinLines lines) = lines := by
  cases lines with
  | nil => rfl
  | cons s rest =>
    have hjoined : ("\n".intercalate (s :: rest)).toList =
        ['\n'].intercalate ((s :: rest).map String.toList) := String.toList_intercalate
    rw [joinLines_cons, blockLines, hjoined,
      List.splitOn_intercalate '\n' (by simpa using h) (by simp)]
    simp

end Attached
end YamlServer
