import YamlServer.Proofs.Yaml.AsideStep

/-!
# The marks of tokens

Tokens start and stop at marks that the reader passes. A token is read behind a gap, where no
comment starts, and the tokens of no width that are put between others stand at such places too.

* `Lexer.Marked.fetch`: reading on queues marked tokens only.
* `TokenStream.marked_ofChars`: all tokens of a text but the start of the stream are marked.
-/

namespace YamlServer
namespace Yaml

open Cursor

/-- A mark that is passed in reading a text. -/
def Mark.IsOf (cs : List Char) (m : Mark) : Prop :=
  ∃ c : Cursor, (Cursor.ofText cs).Reaches c ∧ c.mark = m

/-- A mark of a text at which no `#` stands. -/
def Mark.Bare (cs : List Char) (m : Mark) : Prop :=
  m.IsOf cs ∧ cs[m.index]? ≠ some '#'

structure Token.Marked (cs : List Char) (t : Token) : Prop where
  start : t.start.Bare cs
  stop : t.stop.IsOf cs
  ended : t.kind = .documentEnd → t.stop.Bare cs

namespace Cursor

variable {cs : List Char} {c c' : Cursor} {m : Mark}

theorem Passed.isOf (h : c.Passed c' m) (hc : (ofText cs).Reaches c) : m.IsOf cs := by
  rcases h with ⟨d, hd, -, hmark⟩
  exact ⟨d, hc.trans hd, hmark⟩

theorem Reaches.getElem?_mark (h : (ofText cs).Reaches c) : cs[c.mark.index]? = c.rest.head? := by
  rw [← charAt?_ofText, ← h.charAt?_eq (Nat.le_refl _), charAt?_mark]

theorem Reaches.bare (h : (ofText cs).Reaches c) (hsign : c.peek ≠ '#') : c.mark.Bare cs := by
  refine ⟨⟨c, h, rfl⟩, ?_⟩
  rw [h.getElem?_mark]
  intro hhead
  rw [peek, List.headD_eq_head?_getD, hhead] at hsign
  exact hsign rfl

/-- Behind the end of a document there is a gap. -/
theorem Reaches.bare_advance (h : (ofText cs).Reaches c) {a : Char}
    (hmark : c.atSeparator a = true) :
    (c.advance 3).mark.Bare cs := by
  refine (h.trans (reaches_advance 3 c)).bare ?_
  have hgap : isGap (c.peekAt 3) = true := (Bool.and_eq_true_iff.1 hmark).2
  have hpeek : (c.advance 3).peek = c.peekAt 3 := by
    rw [peek, rest_advance, peekAt, List.headD_eq_head?_getD, List.head?_drop,
      List.getD_eq_getElem?_getD]
  rw [hpeek]
  intro hsign
  rw [hsign] at hgap
  exact absurd hgap (by decide)

end Cursor

namespace Lexer

/-- A state with marked tokens in the queue, and possible keys where tokens start. -/
structure Marked (cs : List Char) (s : Lexer) : Prop where
  reached : (Cursor.ofText cs).Reaches s.cursor
  tokens : ∀ t ∈ s.queue, t.Marked cs
  keys : ∀ k ∈ s.keys, k.2.mark.Bare cs

namespace Marked

variable {cs : List Char} {s s' : Lexer}

theorem skipGap (h : Marked cs s) : Marked cs s.skipGap ∧ s.skipGap.mark.Bare cs := by
  have hreached := h.reached.trans (reaches_skipGap s)
  exact ⟨⟨hreached, h.tokens, h.keys⟩, hreached.bare (peek_skipGap s).1⟩

/-- A token of no width that stands where one starts is marked. -/
theorem owned (h : Marked cs s) (hmark : s.mark.Bare cs) {t : Token} (ht : s.Owns t) :
    t.Marked cs := by
  rcases ht with ht | ⟨hwidth, hstart⟩
  · exact h.tokens t ht
  · have hbare : t.start.Bare cs := by
      rcases hstart with hstart | ⟨k, hk, hstart⟩
      · rw [hstart]
        exact hmark
      · rw [← hstart]
        exact h.keys k hk
    exact ⟨hbare, hwidth ▸ hbare.1, fun _ => hwidth ▸ hbare⟩

theorem key (h : Marked cs s) (hmark : s.mark.Bare cs) {k : Int × SimpleKey}
    (hk : k ∈ s.keys ∨ k.2.mark = s.mark) : k.2.mark.Bare cs := by
  rcases hk with hk | hk
  · exact h.keys k hk
  · rw [hk]
    exact hmark

theorem steps (h : Marked cs s) (hmark : s.mark.Bare cs) {t : Token} {asides : List Aside}
    (hsteps : Steps s s' t asides) : Marked cs s' := by
  have hspells := hsteps.spells
  have htoken : t.Marked cs := by
    refine ⟨hspells.start ▸ hmark, hspells.stop.isOf h.reached, ?_⟩
    intro hkind
    rcases hspells.ended hkind with ⟨hdots, hstop⟩
    rw [hstop]
    exact h.reached.bare_advance hdots
  refine ⟨h.reached.trans hspells.passes.reaches, ?_, fun k hk => h.key hmark (hsteps.keys k hk)⟩
  intro u hu
  rcases hsteps.queued u hu with rfl | howned
  · exact htoken
  · exact h.owned hmark howned

theorem closes (h : Marked cs s) (hmark : s.mark.Bare cs) (hcloses : Closes s s') :
    Marked cs s' := by
  refine ⟨hcloses.cursor ▸ h.reached, fun t ht => h.owned hmark (hcloses.queued t ht), ?_⟩
  rw [hcloses.keys]
  intro k hk
  cases hk

theorem fetch (h : Marked cs s) (hfetch : s.fetch = .ok s') : Marked cs s' := by
  rcases h.skipGap with ⟨hgap, hmark⟩
  rcases steps_fetch hfetch with ⟨hcloses, -⟩ | ⟨t, hsteps⟩
  · exact hgap.closes hmark hcloses
  · exact hgap.steps hmark hsteps

theorem dropStale (h : Marked cs s) (hdrop : s.dropStale = .ok s') : Marked cs s' := by
  rw [dropStale_eq hdrop]
  exact ⟨h.reached, h.tokens, fun k hk => h.keys k (List.mem_filter.1 hk).1⟩

theorem take (h : Marked cs s) {t : Token} {rest : List Token} (hqueue : s.queue = t :: rest) :
    t.Marked cs ∧ Marked cs { s with queue := rest, taken := s.taken + 1 } := by
  have htokens := h.tokens
  rw [hqueue] at htokens
  rcases List.forall_mem_cons.1 htokens with ⟨ht, hrest⟩
  exact ⟨ht, h.reached, hrest, h.keys⟩

end Marked
end Lexer

namespace TokenStream

open Lexer

theorem marked_runFrom {cs : List Char} {s : Lexer} (fuel : Nat) (h : Lexer.Marked cs s) :
    ∀ t ∈ (runFrom fuel s).tokens, t.Marked cs := by
  induction fuel generalizing s with
  | zero =>
    intro t ht
    cases ht
  | succ fuel ih =>
    rw [runFrom_succ]
    generalize hmove : move s = next
    have hmoves : Moves s next := hmove ▸ moves_move s
    cases hmoves with
    | finish hqueue hfinished =>
      intro t ht
      cases ht
    | stop hopen hdrop =>
      intro t ht
      cases ht
    | @read fresh hopen hfresh =>
      have hmarked : Lexer.Marked cs fresh := by
        rcases hfresh with rfl | hdrop
        · exact h
        · exact h.dropStale hdrop
      rw [follow, readOn]
      cases hfetch : fresh.fetch with
      | ok next => exact ih (hmarked.fetch hfetch)
      | error halt =>
        intro t ht
        cases ht
    | takeLast hfinished hqueue =>
      rcases h.take hqueue with ⟨ht, hrest⟩
      exact List.forall_mem_cons.2 ⟨ht, ih hrest⟩
    | take hopen hdrop hdecided hqueue =>
      rcases (h.dropStale hdrop).take hqueue with ⟨ht, hrest⟩
      exact List.forall_mem_cons.2 ⟨ht, ih hrest⟩

/-- All tokens of a text but the start of the stream are marked. -/
theorem marked_ofChars (cs : List Char) : ∀ t ∈ (ofChars cs).tokens.drop 1, t.Marked cs := by
  unfold ofChars
  split
  · intro t ht
    cases ht
  · have hsteps : steps cs = 8 * cs.length + 15 + 1 := rfl
    rw [hsteps, runFrom_ofText]
    refine marked_runFrom _ ⟨Reaches.refl _, ?_, ?_⟩
    · intro t ht
      cases ht
    · intro k hk
      cases hk

end TokenStream
end Yaml
end YamlServer
