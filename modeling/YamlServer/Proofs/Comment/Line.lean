import Mathlib.Data.Nat.Count
import YamlServer.Proofs.Comment.Agreement
import YamlServer.Proofs.Comment.Host
import YamlServer.Proofs.Yaml.TokenMark

/-!
# The lines of comments and nodes

The line of a comment is counted by line feeds, that of a node by all breaks that the reader knows.
So the two are the same count only where no lone break stands before the end of the node.

* `Comment.lineFeeds`, `Comment.loneBreaks`: how many of them stand before an offset.
* `Comment.picked_inlineHost?`: the host of a comment behind content is picked in this way.
-/

namespace YamlServer
namespace Comment

open Yaml

/-! ## Counting lines -/

instance (cs : List Char) : DecidablePred (LoneBreak cs) := fun offset =>
  decidable_of_iff
    (cs[offset]?.any (fun b =>
      isBreak b && b != '\n' && !(b == '\r' && cs[offset + 1]? == some '\n')) = true)
    (by simp [LoneBreak, Option.any_eq_true, and_assoc, imp_iff_not_or])

def lineFeeds (cs : List Char) (offset : Nat) : Nat :=
  Nat.count (fun k => cs[k]? = some '\n') offset

def loneBreaks (cs : List Char) (offset : Nat) : Nat :=
  Nat.count (LoneBreak cs) offset

section

variable {cs : List Char}

@[simp]
theorem lineFeeds_succ (n : Nat) :
    lineFeeds cs (n + 1) = lineFeeds cs n + if cs[n]? = some '\n' then 1 else 0 :=
  Nat.count_succ _ n

@[simp]
theorem loneBreaks_succ (n : Nat) :
    loneBreaks cs (n + 1) = loneBreaks cs n + if LoneBreak cs n then 1 else 0 :=
  Nat.count_succ _ n

theorem loneBreaks_eq_zero_iff {n : Nat} :
    loneBreaks cs n = 0 ↔ ∀ k < n, ¬ LoneBreak cs k :=
  Nat.count_iff_forall_not

/-- Any break but the first half of one is a line feed or a lone break. -/
theorem breaks_succ {n : Nat} {a : Char} (ha : cs[n]? = some a) :
    lineFeeds cs (n + 1) + loneBreaks cs (n + 1) = lineFeeds cs n + loneBreaks cs n +
      if isBreak a = true ∧ ¬ (a = '\r' ∧ cs[n + 1]? = some '\n') then 1 else 0 := by
  have hlone : LoneBreak cs n ↔
      isBreak a = true ∧ a ≠ '\n' ∧ ¬ (a = '\r' ∧ cs[n + 1]? = some '\n') := by
    simp [LoneBreak, ha]
  rw [lineFeeds_succ, loneBreaks_succ, ha, if_congr hlone rfl rfl]
  by_cases hfeed : a = '\n'
  · have hbreak : isBreak a = true ∧ ¬ (a = '\r' ∧ cs[n + 1]? = some '\n') := by
      subst hfeed
      exact ⟨by decide, fun h => absurd h.1 (by decide)⟩
    rw [if_pos hbreak, if_pos (congrArg some hfeed), if_neg (fun h => h.2.1 hfeed)]
    omega
  · simp only [Option.some.injEq, ne_eq, hfeed, if_false, not_false_eq_true, true_and]
    omega

/-- Offsets on one line have the same number of line feeds before them. -/
theorem sameLine_iff {i j : Nat} (h : i ≤ j) :
    SameLine cs i j ↔ lineFeeds cs i = lineFeeds cs j := by
  rcases Nat.exists_eq_add_of_le h with ⟨n, rfl⟩
  rw [lineFeeds, lineFeeds, Nat.count_add, Nat.left_eq_add, Nat.count_iff_forall_not]
  constructor
  · intro hsame k hk
    exact hsame (i + k) (Nat.le_add_right i k) (Nat.add_lt_add_left hk i)
  · intro hsame k hi hj
    rcases Nat.exists_eq_add_of_le hi with ⟨m, rfl⟩
    exact hsame m (Nat.lt_of_add_lt_add_left hj)

/-- The line of a comment counts the line feeds before it. -/
theorem line_of_mem_scan {tokens : List Token} {c : Comment} (hc : c ∈ scan cs tokens) :
    c.line = lineFeeds cs c.offset := by
  refine (of_mem_scanFrom (motive := fun i line _ => line = lineFeeds cs i) ?_ ?_ 0 0 none false
    false rfl hc).1
  · intro i line _ hfeed hline
    rw [lineFeeds_succ, if_pos hfeed, hline]
  · intro i line _ a ha hother hline
    rw [lineFeeds_succ, ha, if_neg (mt Option.some.inj hother), hline, Nat.add_zero]

end

end Comment

/-! ## Lines of marks -/

namespace Yaml

open Comment (lineFeeds loneBreaks breaks_succ)

/-- A break starts a line, unless it is the first half of one. -/
@[simp]
theorem Mark.line_after (m : Mark) (a next : Char) :
    (m.after a next).line =
      m.line + if isBreak a = true ∧ ¬ (a = '\r' ∧ next = '\n') then 1 else 0 := by
  unfold Mark.after
  by_cases hhalf : a = '\r' ∧ next = '\n'
  · simp [hhalf]
  · rw [if_neg (by simpa using hhalf)]
    by_cases hbreak : isBreak a = true
    · rw [if_pos hbreak, if_pos ⟨hbreak, hhalf⟩]
    · have hnone : ¬ (isBreak a = true ∧ ¬ (a = '\r' ∧ next = '\n')) := fun h => hbreak h.1
      rw [if_neg hbreak, if_neg hnone]
      split <;> rfl

namespace Cursor

variable {cs : List Char} {c : Cursor}

/-- The line of a cursor counts the line feeds and the lone breaks before it. -/
def Counted (cs : List Char) (c : Cursor) : Prop :=
  c.mark.line = lineFeeds cs c.mark.index + loneBreaks cs c.mark.index

theorem Counted.skip (h : c.Counted cs) (hreached : (ofText cs).Reaches c) :
    c.skip.Counted cs := by
  have hhere := hreached.getElem?_mark
  have hahead := (hreached.trans (reaches_skip c)).getElem?_mark
  unfold Cursor.skip at hahead ⊢
  split at hahead
  · exact h
  · rename_i a rest hrest
    rw [hrest] at hhere
    simp only [index_after] at hahead
    -- The character ahead tells a lone carriage return from the first half of a break.
    have hnext : rest.headD endChar = '\n' ↔ cs[c.mark.index + 1]? = some '\n' := by
      rw [hahead]
      cases rest with
      | nil => decide
      | cons b more => simp
    rw [Counted] at h ⊢
    simp only [index_after]
    rw [Mark.line_after, breaks_succ hhere, h, if_congr (by rw [hnext]) rfl rfl]

theorem counted_advance (cs : List Char) (n : Nat) : ((ofText cs).advance n).Counted cs := by
  induction n with
  | zero => rfl
  | succ n ih =>
    rw [advance_add n 1]
    exact ih.skip (reaches_advance n _)

end Cursor

/-- The line of a mark counts the line feeds and the lone breaks before it. -/
theorem Mark.IsOf.line_eq {cs : List Char} {m : Mark} (h : m.IsOf cs) :
    m.line = lineFeeds cs m.index + loneBreaks cs m.index := by
  rcases h with ⟨c, ⟨n, rfl⟩, rfl⟩
  exact Cursor.counted_advance cs n

end Yaml

/-! ## The node that ends last -/

namespace Comment

open Yaml

/-- A node ends on the line of a comment, and before it. -/
def Fits (c : Comment) (n : Node) : Prop :=
  n.span.stop.line = c.line ∧ n.span.stop.index ≤ c.offset

/-- A node ends before another one, or where that one ends and is listed no later. -/
def EndsBy (m n : Node) : Prop :=
  m.span.stop.index < n.span.stop.index ∨ m.span.stop.index = n.span.stop.index ∧ m.id ≤ n.id

/-- Of the nodes listed, the one that ends last among those that fit a comment. -/
structure Picked (c : Comment) (nodes : List Node) (best : Option Node) : Prop where
  fits : ∀ n, best = some n → n ∈ nodes ∧ Fits c n
  last : ∀ m ∈ nodes, Fits c m → ∃ n, best = some n ∧ EndsBy m n

theorem endsBefore_iff {c : Comment} {least : Nat} {n : Node} :
    endsBefore c least n = true ↔ Fits c n ∧ least ≤ n.span.stop.index := by
  simp only [endsBefore, Fits, Bool.and_eq_true, beq_iff_eq, decide_eq_true_eq]
  exact ⟨fun h => ⟨⟨h.1.1, h.2⟩, h.1.2⟩, fun h => ⟨⟨h.1.1, h.2⟩, h.1.2⟩⟩

def bestStop (best : Option Node) : Nat :=
  best.elim 0 (·.span.stop.index)

theorem inlineHostFrom_cons (c : Comment) (best : Option Node) (n : Node) (rest : List Node) :
    inlineHostFrom c best (n :: rest) =
      inlineHostFrom c (if endsBefore c (bestStop best) n then some n else best) rest := by
  cases best <;> rfl

/-- A node listed behind the others is picked if it fits and none of them ends behind it. -/
theorem Picked.snoc {c : Comment} {nodes : List Node} {best : Option Node} {n : Node}
    (h : Picked c nodes best) (hids : ∀ m ∈ nodes, m.id < n.id) :
    Picked c (nodes ++ [n]) (if endsBefore c (bestStop best) n then some n else best) := by
  by_cases hends : endsBefore c (bestStop best) n = true
  · rcases endsBefore_iff.1 hends with ⟨hfits, hleast⟩
    rw [if_pos hends]
    constructor
    · rintro n' hn'
      cases hn'
      exact ⟨by simp, hfits⟩
    · intro m hm hfit
      refine ⟨n, rfl, ?_⟩
      rcases List.mem_append.1 hm with hm | hm
      · rcases h.last m hm hfit with ⟨b, rfl, hby⟩
        have hle : m.span.stop.index ≤ b.span.stop.index := by
          rcases hby with hlt | ⟨heq, -⟩
          · exact Nat.le_of_lt hlt
          · exact Nat.le_of_eq heq
        rcases Nat.lt_or_eq_of_le (Nat.le_trans hle hleast) with hlt | heq
        · exact Or.inl hlt
        · exact Or.inr ⟨heq, Nat.le_of_lt (hids m hm)⟩
      · rcases List.mem_singleton.1 hm with rfl
        exact Or.inr ⟨rfl, Nat.le_refl _⟩
  · rw [if_neg hends]
    constructor
    · intro n' hn'
      rcases h.fits n' hn' with ⟨hmem, hfits⟩
      exact ⟨List.mem_append_left _ hmem, hfits⟩
    · intro m hm hfit
      rcases List.mem_append.1 hm with hm | hm
      · exact h.last m hm hfit
      · rcases List.mem_singleton.1 hm with rfl
        -- It fits but is not picked, so a node that ends behind it was picked before.
        have hbehind : m.span.stop.index < bestStop best := by
          by_contra hle
          exact hends (endsBefore_iff.2 ⟨hfit, Nat.le_of_not_lt hle⟩)
        cases best with
        | none => exact absurd hbehind (Nat.not_lt_zero _)
        | some b => exact ⟨b, rfl, Or.inl hbehind⟩

theorem Picked.inlineHostFrom {c : Comment} {seen nodes : List Node} {best : Option Node}
    (h : Picked c seen best) (hids : (seen ++ nodes).Pairwise fun m m' => m.id < m'.id) :
    Picked c (seen ++ nodes) (inlineHostFrom c best nodes) := by
  induction nodes generalizing seen best with
  | nil =>
    rw [List.append_nil]
    exact h
  | cons n rest ih =>
    have hbefore : ∀ m ∈ seen, m.id < n.id := by
      intro m hm
      exact (List.pairwise_append.1 hids).2.2 m hm n List.mem_cons_self
    rw [List.append_cons] at hids ⊢
    rw [inlineHostFrom_cons]
    exact ih (h.snoc hbefore) hids

/-- The node on whose line a comment goes ends last of those that fit it. -/
theorem picked_inlineHost? (c : Comment) {nodes : List Node}
    (hids : nodes.Pairwise fun m m' => m.id < m'.id) :
    Picked c nodes (inlineHost? nodes c) := by
  have hnone : Picked c [] none := by
    constructor
    · intro n hn
      cases hn
    · intro m hm
      cases hm
  exact hnone.inlineHostFrom hids

/-- Where a comment behind content goes that does not stand in front of the root. -/
theorem hostOf_inline {root : Node} {c : Comment} (hstart : root.span.start.index ≤ c.offset)
    (hinline : c.inline = true) :
    hostOf (some root) c = (inlineHost? root.walk c).elim .trailing fun n => .inline n.id := by
  rw [hostOf, if_neg (Nat.not_lt.2 hstart), if_pos hinline]
  cases inlineHost? root.walk c <;> rfl

end Comment
end YamlServer
