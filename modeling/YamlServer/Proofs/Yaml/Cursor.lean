import YamlServer.Proofs.Outcome
import YamlServer.Yaml.Token.Block
import YamlServer.Yaml.Token.Plain

/-!
# Cursors only move forward

Whatever is read, the cursor lies some characters further on afterwards. So the mark where a token
starts, the one where it ends and the one where reading goes on follow each other, and none of them
lies past the end of the text.

* `ReadsText`: a token with a text of its own, and only blanks between its end and the cursor.
-/

namespace YamlServer
namespace Yaml
namespace Cursor

/-! ## Moving forward -/

@[simp]
theorem index_after (m : Mark) (a next : Char) : (m.after a next).index = m.index + 1 := by
  unfold Mark.after
  split
  · rfl
  · split
    · rfl
    · split <;> rfl

theorem advance_add (n k : Nat) (c : Cursor) : c.advance (n + k) = (c.advance n).advance k := by
  induction n generalizing c with
  | zero => simp [advance]
  | succ n ih =>
    have hsucc : n + 1 + k = n + k + 1 := by omega
    rw [hsucc, advance, advance]
    exact ih c.skip

/-- What moving forward leaves: the index grows by what the rest loses. -/
theorem index_advance (n : Nat) (c : Cursor) :
    c.mark.index ≤ (c.advance n).mark.index ∧
      (c.advance n).mark.index + (c.advance n).rest.length = c.mark.index + c.rest.length := by
  -- On the number of characters: each takes one from the rest and adds one to the index.
  induction n generalizing c with
  | zero => exact ⟨Nat.le_refl _, rfl⟩
  | succ n ih =>
    have hskip : c.mark.index ≤ c.skip.mark.index ∧
        c.skip.mark.index + c.skip.rest.length = c.mark.index + c.rest.length := by
      unfold skip
      split
      · exact ⟨Nat.le_refl _, rfl⟩
      · rename_i a rest hrest
        simp only [index_after, hrest, List.length_cons]
        omega
    have hrest := ih c.skip
    rw [advance]
    omega

/-- `c'` lies some characters after `c`. -/
def Reaches (c c' : Cursor) : Prop :=
  ∃ n, c' = c.advance n

namespace Reaches

variable {c c' c'' : Cursor}

theorem refl (c : Cursor) : c.Reaches c :=
  ⟨0, rfl⟩

theorem trans (h : c.Reaches c') (h' : c'.Reaches c'') : c.Reaches c'' := by
  rcases h with ⟨n, rfl⟩
  rcases h' with ⟨k, rfl⟩
  exact ⟨n + k, (advance_add n k c).symm⟩

theorem index_le (h : c.Reaches c') : c.mark.index ≤ c'.mark.index := by
  rcases h with ⟨n, rfl⟩
  exact (index_advance n c).1

theorem end_eq (h : c.Reaches c') :
    c'.mark.index + c'.rest.length = c.mark.index + c.rest.length := by
  rcases h with ⟨n, rfl⟩
  exact (index_advance n c).2

end Reaches

theorem reaches_advance (n : Nat) (c : Cursor) : c.Reaches (c.advance n) :=
  ⟨n, rfl⟩

theorem reaches_skip (c : Cursor) : c.Reaches c.skip :=
  ⟨1, rfl⟩

/-- Where a character is left, skipping it shortens the rest, and so does every way on from
there. -/
theorem Reaches.shorter {c c' : Cursor} (h : c.skip.Reaches c') (hrest : c.rest ≠ []) :
    c'.rest.length < c.rest.length := by
  have hskip : c.skip.rest.length < c.rest.length := by
    unfold skip
    split
    · rename_i hnil
      exact absurd hnil hrest
    · rename_i a rest hcons
      rw [hcons]
      exact Nat.lt_succ_self _
  have hindex := h.index_le
  have hend := h.end_eq
  omega

theorem skipWhileFrom_eq (p : Char → Bool) (cs : List Char) (m : Mark) :
    skipWhileFrom p cs m = (⟨cs, m⟩ : Cursor).advance (cs.takeWhile p).length := by
  induction cs generalizing m with
  | nil => rfl
  | cons a rest ih =>
    rw [skipWhileFrom]
    -- The run of characters that `p` accepts is counted as it is skipped.
    cases hp : p a with
    | true =>
      rw [if_pos rfl, List.takeWhile_cons_of_pos hp, List.length_cons, advance]
      exact ih _
    | false => simp [hp, advance]

theorem reaches_skipWhile (p : Char → Bool) (c : Cursor) : c.Reaches (c.skipWhile p) :=
  ⟨_, skipWhileFrom_eq p c.rest c.mark⟩

theorem reaches_skipSpaces (c : Cursor) : c.Reaches c.skipSpaces :=
  reaches_skipWhile _ c

theorem reaches_skipComment (c : Cursor) : c.Reaches c.skipComment := by
  unfold skipComment
  split
  · exact reaches_skipWhile _ c
  · exact Reaches.refl c

theorem reaches_lineBreak (c : Cursor) : c.Reaches c.lineBreak.2 := by
  unfold lineBreak
  dsimp only
  split
  · exact reaches_advance 2 c
  · split
    · exact reaches_skip c
    · split
      · exact reaches_skip c
      · exact Reaches.refl c

/-- A mark that was passed on the way from `c` to `c'`. -/
def Passed (c c' : Cursor) (m : Mark) : Prop :=
  ∃ d : Cursor, c.Reaches d ∧ d.Reaches c' ∧ d.mark = m

namespace Passed

variable {c c' c'' : Cursor} {m : Mark}

theorem here (h : c.Reaches c') : Passed c c' c'.mark :=
  ⟨c', h, Reaches.refl c', rfl⟩

theorem before {b : Cursor} (h : Passed c c' m) (h' : b.Reaches c) : Passed b c' m := by
  rcases h with ⟨d, hd, hd', rfl⟩
  exact ⟨d, h'.trans hd, hd', rfl⟩

theorem reaches (h : Passed c c' m) : c.Reaches c' := by
  rcases h with ⟨d, hd, hd', -⟩
  exact hd.trans hd'

theorem le_index (h : Passed c c' m) : c.mark.index ≤ m.index := by
  rcases h with ⟨d, hd, -, rfl⟩
  exact hd.index_le

theorem index_le (h : Passed c c' m) : m.index ≤ c'.mark.index := by
  rcases h with ⟨d, -, hd', rfl⟩
  exact hd'.index_le

end Passed

/-! ## Moving over blanks -/

/-- `c'` lies after `c`, with spaces and line breaks only between them. -/
def BlankTo (c c' : Cursor) : Prop :=
  ∃ n, c' = c.advance n ∧ ∀ a ∈ c.rest.take n, a = ' ' ∨ isBreak a = true

@[simp]
theorem rest_advance (n : Nat) (c : Cursor) : (c.advance n).rest = c.rest.drop n := by
  induction n generalizing c with
  | zero => rfl
  | succ n ih =>
    rw [advance, ih]
    cases hrest : c.rest with
    | nil => simp [skip, hrest]
    | cons a rest => simp [skip, hrest]

namespace BlankTo

variable {c c' c'' : Cursor}

theorem refl (c : Cursor) : c.BlankTo c := by
  refine ⟨0, rfl, ?_⟩
  intro a ha
  cases ha

theorem trans (h : c.BlankTo c') (h' : c'.BlankTo c'') : c.BlankTo c'' := by
  rcases h with ⟨n, rfl, hblank⟩
  rcases h' with ⟨k, rfl, hblank'⟩
  refine ⟨n + k, (advance_add n k c).symm, ?_⟩
  intro a ha
  rw [List.take_add] at ha
  rcases List.mem_append.1 ha with ha | ha
  · exact hblank a ha
  · rw [← rest_advance] at ha
    exact hblank' a ha

theorem reaches (h : c.BlankTo c') : c.Reaches c' := by
  rcases h with ⟨n, rfl, -⟩
  exact reaches_advance n c

theorem skip (h : c.peek = ' ' ∨ isBreak c.peek = true) : c.BlankTo c.skip := by
  refine ⟨1, rfl, ?_⟩
  intro a ha
  unfold peek at h
  cases hrest : c.rest with
  | nil =>
    rw [hrest] at ha
    cases ha
  | cons b rest =>
    rw [hrest] at ha h
    rcases List.mem_singleton.1 ha with rfl
    exact h

end BlankTo

theorem blankTo_skipSpaces (c : Cursor) : c.BlankTo c.skipSpaces := by
  refine ⟨_, skipWhileFrom_eq (· == ' ') c.rest c.mark, ?_⟩
  intro a ha
  have hprefix := List.prefix_iff_eq_take.1 (List.takeWhile_prefix (· == ' ') (l := c.rest))
  rw [← hprefix] at ha
  exact Or.inl (beq_iff_eq.1 (List.all_eq_true.1 List.all_takeWhile a ha))

theorem blankTo_lineBreak (c : Cursor) : c.BlankTo c.lineBreak.2 := by
  have hbreaks : ∀ {a : Char}, (a == '\r' || a == '\n' || a.toNat == 0x85) = true →
      isBreak a = true := by
    intro a ha
    unfold isBreak
    rcases Bool.or_eq_true_iff.1 ha with ha | ha
    · rw [Bool.or_comm (a == '\r')] at ha
      simp [ha]
    · simp [ha]
  unfold lineBreak
  dsimp only
  split
  · -- The two halves of one break.
    rename_i hpair
    rcases Bool.and_eq_true_iff.1 hpair with ⟨hfirst, hsecond⟩
    have hskip : c.skip.peek = c.peekAt 1 := by
      cases hrest : c.rest with
      | nil => simp [peek, peekAt, Cursor.skip, hrest]
      | cons a rest => cases rest <;> simp [peek, peekAt, Cursor.skip, hrest]
    refine (BlankTo.skip (Or.inr ?_)).trans (BlankTo.skip (Or.inr ?_))
    · rw [beq_iff_eq.1 hfirst]
      rfl
    · rw [hskip, beq_iff_eq.1 hsecond]
      rfl
  · split
    · rename_i hbreak
      exact BlankTo.skip (Or.inr (hbreaks hbreak))
    · split
      · rename_i hbreak
        exact BlankTo.skip (Or.inr hbreak)
      · exact BlankTo.refl c

/-- A mark that was passed on the way from `c` to `c'` with nothing but blanks behind it. -/
def PassedLast (c c' : Cursor) (m : Mark) : Prop :=
  ∃ d : Cursor, c.Reaches d ∧ d.BlankTo c' ∧ d.mark = m

namespace PassedLast

variable {c c' c'' : Cursor} {m : Mark}

theorem here (h : c.Reaches c') : PassedLast c c' c'.mark :=
  ⟨c', h, BlankTo.refl c', rfl⟩

theorem extend (h : PassedLast c c' m) (h' : c'.BlankTo c'') : PassedLast c c'' m := by
  rcases h with ⟨d, hd, hd', rfl⟩
  exact ⟨d, hd, hd'.trans h', rfl⟩

theorem before {b : Cursor} (h : PassedLast c c' m) (h' : b.Reaches c) : PassedLast b c' m := by
  rcases h with ⟨d, hd, hd', rfl⟩
  exact ⟨d, h'.trans hd, hd', rfl⟩

theorem passed (h : PassedLast c c' m) : Passed c c' m := by
  rcases h with ⟨d, hd, hd', rfl⟩
  exact ⟨d, hd, hd'.reaches, rfl⟩

end PassedLast

end Cursor

open Cursor

/-- A token that starts at the cursor `c`, and ends at least one character further on at or before
the cursor `c'`. It is not the end of the stream. -/
structure Reads (c : Cursor) (t : Token) (c' : Cursor) : Prop where
  start : t.start = c.mark
  beyond : c.skip.Passed c' t.stop
  inner : t.kind ≠ .streamEnd

namespace Reads

variable {c c' : Cursor} {t : Token}

theorem stop (h : Reads c t c') : c.Passed c' t.stop :=
  h.beyond.before (reaches_skip c)

theorem moved (h : Reads c t c') : c.skip.Reaches c' :=
  h.beyond.reaches

theorem reaches (h : Reads c t c') : c.Reaches c' :=
  h.stop.reaches

end Reads

/-- A token whose own text may hold a `#`, read with nothing but blanks passed over after it. -/
structure ReadsText (c : Cursor) (t : Token) (c' : Cursor) : Prop extends Reads c t c' where
  last : c.PassedLast c' t.stop
  text : t.kind.isText = true

namespace ReadsText

variable {c c' : Cursor} {t : Token}

theorem ofLast (hstart : t.start = c.mark) (hlast : c.skip.PassedLast c' t.stop)
    (htext : t.kind.isText = true) : ReadsText c t c' := by
  refine ⟨⟨hstart, hlast.passed, ?_⟩, ?_, htext⟩
  · intro hkind
    rw [hkind] at htext
    cases htext
  · exact hlast.before (reaches_skip c)

/-- A token that ends where reading goes on. -/
theorem upTo (hmoved : c.skip.Reaches c') (hstart : t.start = c.mark) (hstop : t.stop = c'.mark)
    (htext : t.kind.isText = true) : ReadsText c t c' :=
  ofLast hstart (hstop ▸ PassedLast.here hmoved) htext

end ReadsText

end Yaml
end YamlServer
