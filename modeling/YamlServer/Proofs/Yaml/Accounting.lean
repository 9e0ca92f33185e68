import YamlServer.Proofs.Yaml.AsideStep

/-!
# Accounting for a text

Reading tokens is followed step by step, and the asides of the steps are put in a row. For a text
that is read to its end this row accounts for every `#` of it: each stands in an aside, or in a
token whose own text may hold one, and never in both. No token but the start of the stream stands in
an aside.

* `TokenStream.asides`: the asides of a text.
* `TokenStream.accounts_ofChars`: with its tokens they account for it.
-/

namespace YamlServer
namespace Yaml

open Cursor

/-- An offset at which neither a `#` nor a line break stands, outside all asides. -/
structure Clear (text : List Char) (asides : List Aside) (offset : Nat) : Prop where
  char : ∀ c, text[offset]? = some c → c ≠ '#' ∧ isBreak c = false
  outside : ∀ a ∈ asides, ¬ a.Holds offset

/-- A token that starts at a clear place and whose own text lies apart from the asides. -/
structure Token.Apart (text : List Char) (asides : List Aside) (t : Token) : Prop where
  start : Clear text asides t.start.index
  text : t.kind.isText = true → ∀ a ∈ asides, a.place ≠ .inHeader →
    a.stop ≤ t.start.index ∨ t.stop.index ≤ a.start

/-- A token whose own text holds an offset. -/
def Token.Covers (t : Token) (offset : Nat) : Prop :=
  t.kind.isText = true ∧ t.Holds offset

/-- Tokens and asides that account for a text up to an offset. Of the tokens, the start of the
stream alone may stand at a comment. -/
structure Accounts (text : List Char) (stop : Nat) (tokens : List Token) (asides : List Aside) :
    Prop where
  order : InOrder Aside.extent 0 stop asides
  stands : ∀ a ∈ asides, a.Stands fun offset => text[offset]?
  signs : ∀ offset < stop, text[offset]? = some '#' →
    (∃ t ∈ tokens, t.Covers offset) ∨ ∃ a ∈ asides, a.place ≠ .inHeader ∧ a.Holds offset
  apart : ∀ t ∈ tokens, t.kind = .streamStart ∨ t.Apart text asides
  header : ∀ a ∈ asides, a.place = .inHeader → (∃ t ∈ tokens, t.Covers a.start) ∧
    ∃ offset, a.start = offset + 1 ∧ text[offset]? = some ' '

section

variable {text : List Char} {done more : List Aside} {t : Token} {offset : Nat}

theorem Clear.extend (h : Clear text done offset) (hmore : ∀ a ∈ more, offset < a.start) :
    Clear text (done ++ more) offset := by
  refine ⟨h.char, ?_⟩
  intro a ha hholds
  rcases List.mem_append.1 ha with ha | ha
  · exact h.outside a ha hholds
  · exact absurd hholds.1 (Nat.not_le_of_lt (hmore a ha))

/-- More asides further on do not touch a token that ends before them. -/
theorem Token.Apart.extend (h : t.Apart text done)
    (hmore : ∀ a ∈ more, t.start.index < a.start ∧ t.stop.index ≤ a.start) :
    t.Apart text (done ++ more) := by
  refine ⟨h.start.extend fun a ha => (hmore a ha).1, ?_⟩
  intro htext a ha hplace
  rcases List.mem_append.1 ha with ha | ha
  · exact h.text htext a ha hplace
  · exact Or.inr (hmore a ha).2

/-- A token of no width needs a clear place only. -/
theorem Clear.apart (h : Clear text done t.start.index) (hwidth : t.stop = t.start) :
    t.Apart text done := by
  refine ⟨h, ?_⟩
  intro _ a ha _
  have hout : ¬ a.Holds t.start.index := h.outside a ha
  unfold Aside.Holds at hout
  rw [hwidth]
  omega

theorem Accounts.pass {c c' : Cursor} {P : Nat → Prop} {tokens tokens' : List Token}
    (h : Accounts text c.mark.index tokens done) (hreached : (Cursor.ofText text).Reaches c)
    (hpass : c.Passes P c' more) (htokens : ∀ t ∈ tokens, t ∈ tokens')
    (hP : ∀ offset, P offset → ∃ t ∈ tokens', t.Covers offset)
    (hapart : ∀ t ∈ tokens', t.kind = .streamStart ∨ t.Apart text (done ++ more))
    (hheader : ∀ a ∈ more, a.place = .inHeader → (∃ t ∈ tokens', t.Covers a.start) ∧
      ∃ offset, c.mark.index ≤ offset ∧ a.start = offset + 1 ∧ c.charAt? offset = some ' ') :
    Accounts text c'.mark.index tokens' (done ++ more) := by
  -- From the cursor on, what it shows is the text itself.
  have hchar : ∀ {offset : Nat}, c.mark.index ≤ offset → c.charAt? offset = text[offset]? := by
    intro offset hoffset
    rw [hreached.charAt?_eq hoffset, charAt?_ofText]
  refine ⟨h.order.append hpass.order, ?_, ?_, hapart, ?_⟩
  · intro a ha
    rcases List.mem_append.1 ha with ha | ha
    · exact h.stands a ha
    · have hinside := hpass.order.inside a ha
      exact (hpass.stands a ha).congr hinside.2.1 fun offset hoffset =>
        hchar (Nat.le_trans hinside.1 hoffset)
  · intro offset hoffset hsign
    by_cases hold : offset < c.mark.index
    · rcases h.signs offset hold hsign with ⟨t, ht, hcovers⟩ | ⟨a, ha, haside⟩
      · exact Or.inl ⟨t, htokens t ht, hcovers⟩
      · exact Or.inr ⟨a, List.mem_append_left _ ha, haside⟩
    · have hlo := Nat.le_of_not_lt hold
      rw [← hchar hlo] at hsign
      rcases hpass.signs offset hlo hoffset hsign with hcovers | ⟨a, ha, haside⟩
      · exact Or.inl (hP offset hcovers)
      · exact Or.inr ⟨a, List.mem_append_right _ ha, haside⟩
  · intro a ha hplace
    rcases List.mem_append.1 ha with ha | ha
    · rcases h.header a ha hplace with ⟨⟨t, ht, hcovers⟩, hspace⟩
      exact ⟨⟨t, htokens t ht, hcovers⟩, hspace⟩
    · rcases hheader a ha hplace with ⟨hcovers, offset, hlo, hstart, hspace⟩
      rw [hchar hlo] at hspace
      exact ⟨hcovers, offset, hstart, hspace⟩

end

namespace Lexer

/-- What holds of the state between two tokens: the tokens that left the queue and those still in
it, with the asides passed over so far, account for the text up to the cursor. -/
structure Told (text : List Char) (out : List Token) (done : List Aside) (s : Lexer) : Prop extends
    Accounts text s.mark.index (out ++ s.queue) done where
  reached : (Cursor.ofText text).Reaches s.cursor
  behind : s.finished = false → ∀ t ∈ out ++ s.queue,
    t.stop.index ≤ s.mark.index ∧ (t.kind = .streamStart ∨ t.start.index < s.mark.index)
  keys : ∀ k ∈ s.keys, k.2.mark.index < s.mark.index ∧ Clear text done k.2.mark.index
  ended : s.finished = true → s.cursor.rest = []

namespace Told

variable {text : List Char} {out : List Token} {done : List Aside} {s s' : Lexer}

theorem dropStale (h : Told text out done s) (hdrop : s.dropStale = .ok s') :
    Told text out done s' := by
  rcases dropStale_eq hdrop with rfl
  exact ⟨h.toAccounts, h.reached, h.behind, fun k hk => h.keys k (List.mem_filter.1 hk).1, h.ended⟩

/-- A token that leaves the queue is still told of. -/
theorem take (h : Told text out done s) {t : Token} {rest : List Token}
    (hqueue : s.queue = t :: rest) :
    Told text (out ++ [t]) done { s with queue := rest, taken := s.taken + 1 } := by
  have htokens : out ++ s.queue = out ++ [t] ++ rest := by
    rw [hqueue, List.append_assoc, List.singleton_append]
  have haccounts := h.toAccounts
  have hbehind := h.behind
  rw [htokens] at haccounts hbehind
  exact ⟨haccounts, h.reached, hbehind, h.keys, h.ended⟩

theorem skipGap (h : Told text out done s) (hopen : s.finished = false) :
    Told text out (done ++ gapAsides false s.gapStart.rest s.gapStart.mark) s.skipGap := by
  have hpass := passes_skipGap s
  have hle : s.mark.index ≤ s.skipGap.mark.index := hpass.reaches.index_le
  -- Everything told of so far stands before the gap.
  have hmore : ∀ a ∈ gapAsides false s.gapStart.rest s.gapStart.mark, s.mark.index ≤ a.start :=
    fun a ha => (hpass.order.inside a ha).1
  refine ⟨?_, h.reached.trans hpass.reaches, ?_, ?_, ?_⟩
  · refine h.toAccounts.pass h.reached hpass (fun t ht => ht) (fun _ hfalse => hfalse.elim) ?_ ?_
    · intro t ht
      rcases h.behind hopen t ht with ⟨hstop, hkind | hstart⟩
      · exact Or.inl hkind
      · refine (h.apart t ht).imp_right fun hapart => hapart.extend ?_
        intro a ha
        exact ⟨Nat.lt_of_lt_of_le hstart (hmore a ha), Nat.le_trans hstop (hmore a ha)⟩
    · intro a ha hheader
      rw [place_of_mem_gapAsides ha] at hheader
      cases hheader
  · intro _ t ht
    rcases h.behind hopen t ht with ⟨hstop, hstart⟩
    exact ⟨Nat.le_trans hstop hle, hstart.imp_right fun hlt => Nat.lt_of_lt_of_le hlt hle⟩
  · intro k hk
    rcases h.keys k hk with ⟨hlt, hclear⟩
    exact ⟨Nat.lt_of_lt_of_le hlt hle,
      hclear.extend fun a ha => Nat.lt_of_lt_of_le hlt (hmore a ha)⟩
  · intro hfinished
    exact absurd (hopen.symm.trans hfinished) Bool.false_ne_true

/-- A place at the cursor, behind a gap, is clear of what was passed over. -/
theorem clear_mark (h : Told text out done s) (hsign : s.cursor.peek ≠ '#')
    (hbreak : isBreak s.cursor.peek = false) : Clear text done s.mark.index := by
  refine ⟨?_, ?_⟩
  · intro c hc
    have hhead : s.cursor.rest.head? = some c := by
      rw [← charAt?_mark, h.reached.charAt?_eq (Nat.le_refl _), charAt?_ofText]
      exact hc
    have hpeek : s.cursor.peek = c := by
      rw [peek, List.headD_eq_head?_getD, hhead]
      rfl
    rw [← hpeek]
    exact ⟨hsign, hbreak⟩
  · intro a ha hholds
    have hinside : a.stop ≤ s.mark.index := (h.order.inside a ha).2.2
    exact absurd hholds.2 (Nat.not_lt_of_le hinside)

/-- What a state owns is apart from the asides before the cursor. -/
theorem apart_of_owns (h : Told text out done s) (hclear : Clear text done s.mark.index) {t : Token}
    (ht : s.Owns t) : t.kind = .streamStart ∨ t.Apart text done := by
  rcases ht with ht | ⟨hwidth, hstart | ⟨k, hk, hmark⟩⟩
  · exact h.apart t (List.mem_append_right _ ht)
  · rw [← hstart] at hclear
    exact Or.inr (hclear.apart hwidth)
  · have hkey := (h.keys k hk).2
    rw [hmark] at hkey
    exact Or.inr (hkey.apart hwidth)

theorem behind_of_owns (h : Told text out done s) (hopen : s.finished = false) {t : Token}
    (ht : s.Owns t) : t.stop.index ≤ s.mark.index ∧
      (t.kind = .streamStart ∨ t.start.index ≤ s.mark.index) := by
  rcases ht with ht | ⟨hwidth, hstart | ⟨k, hk, hmark⟩⟩
  · rcases h.behind hopen t (List.mem_append_right _ ht) with ⟨hstop, hstart⟩
    exact ⟨hstop, hstart.imp_right Nat.le_of_lt⟩
  · rw [hwidth, hstart]
    exact ⟨Nat.le_refl _, Or.inr (Nat.le_refl _)⟩
  · have hlt := (h.keys k hk).1
    rw [hmark] at hlt
    rw [hwidth]
    exact ⟨Nat.le_of_lt hlt, Or.inr (Nat.le_of_lt hlt)⟩

section Step

variable {t : Token} {more : List Aside} (h : Told text out done s) (hopen : s.finished = false)
  (hclear : Clear text done s.mark.index)

include h hopen hclear

/-- Asides behind the cursor touch no token that was there before them. -/
theorem older (hmore : ∀ a ∈ more, s.mark.index < a.start) {u : Token} (hu : s.Owns u ∨ u ∈ out) :
    (u.kind = .streamStart ∨ u.Apart text (done ++ more)) ∧ u.stop.index ≤ s.mark.index ∧
      (u.kind = .streamStart ∨ u.start.index ≤ s.mark.index) := by
  have hu' : (u.kind = .streamStart ∨ u.Apart text done) ∧ u.stop.index ≤ s.mark.index ∧
      (u.kind = .streamStart ∨ u.start.index ≤ s.mark.index) := by
    rcases hu with hu | hu
    · exact ⟨h.apart_of_owns hclear hu, h.behind_of_owns hopen hu⟩
    · have hmem := List.mem_append_left s.queue hu
      rcases h.behind hopen u hmem with ⟨hstop, hstart⟩
      exact ⟨h.apart u hmem, hstop, hstart.imp_right Nat.le_of_lt⟩
  rcases hu' with ⟨hapart, hstop, hkind | hstart⟩
  · exact ⟨Or.inl hkind, hstop, Or.inl hkind⟩
  · refine ⟨hapart.imp_right fun hu => hu.extend ?_, hstop, Or.inr hstart⟩
    intro a ha
    have hlt := hmore a ha
    omega

/-- Reading a token that starts at the cursor. -/
theorem steps (hsteps : Steps s s' t more) : Told text out (done ++ more) s' := by
  have hspells := hsteps.spells
  have hmoved : s.mark.index < s'.mark.index := hspells.moved
  have hstart : t.start = s.mark := hspells.start
  -- All that is passed over stands behind the cursor.
  have hmore : ∀ a ∈ more, s.mark.index < a.start := by
    intro a ha
    by_cases hplace : a.place = .inHeader
    · rcases hspells.header a ha hplace with ⟨-, -, offset, hlo, hindex, -⟩
      exact Nat.lt_of_le_of_lt hlo (by omega)
    · exact (hspells.behind a ha hplace).1
  have hclear' : Clear text (done ++ more) s.mark.index := hclear.extend hmore
  have htoken : t.Apart text (done ++ more) := by
    refine ⟨hstart ▸ hclear', ?_⟩
    intro _ a ha hplace
    rcases List.mem_append.1 ha with ha | ha
    · have hinside : a.stop ≤ s.mark.index := (h.order.inside a ha).2.2
      exact Or.inl (hstart ▸ hinside)
    · exact Or.inr (hspells.behind a ha hplace).2
  have hmember : ∀ u ∈ out ++ s'.queue, u = t ∨ s.Owns u ∨ u ∈ out := by
    intro u hu
    rcases List.mem_append.1 hu with hu | hu
    · exact Or.inr (Or.inr hu)
    · exact (hsteps.queued u hu).imp_right Or.inl
  have hqueued : t ∈ out ++ s'.queue := List.mem_append_right _ hsteps.token
  refine ⟨?_, h.reached.trans hspells.passes.reaches, ?_, ?_, ?_⟩
  · refine h.toAccounts.pass h.reached hspells.passes ?_ ?_ ?_ ?_
    · intro u hu
      rcases List.mem_append.1 hu with hu | hu
      · exact List.mem_append_left _ hu
      · exact List.mem_append_right _ (hsteps.kept u hu)
    · intro offset hcovers
      exact ⟨t, hqueued, hcovers⟩
    · intro u hu
      rcases hmember u hu with rfl | hu
      · exact Or.inr htoken
      · exact (h.older hopen hclear hmore hu).1
    · intro a ha hplace
      rcases hspells.header a ha hplace with ⟨htext, hholds, hspace⟩
      exact ⟨⟨t, hqueued, htext, hholds⟩, hspace⟩
  · intro _ u hu
    rcases hmember u hu with rfl | hu
    · rw [hstart]
      exact ⟨hspells.stop.index_le, Or.inr hmoved⟩
    · rcases (h.older hopen hclear hmore hu).2 with ⟨hstop, hbefore⟩
      exact ⟨by omega, hbefore.imp_right fun hle => Nat.lt_of_le_of_lt hle hmoved⟩
  · intro k hk
    rcases hsteps.keys k hk with hk | hk
    · rcases h.keys k hk with ⟨hlt, hkey⟩
      exact ⟨Nat.lt_trans hlt hmoved, hkey.extend fun a ha => Nat.lt_trans hlt (hmore a ha)⟩
    · rw [hk]
      exact ⟨hmoved, hclear'⟩
  · intro hfinished
    exact absurd ((hsteps.finished.trans hopen).symm.trans hfinished) Bool.false_ne_true

end Step

/-- The end of the stream, which is the end of a text without forbidden characters. -/
theorem closes (hpermitted : ∀ c ∈ text, TokenStream.Permitted c) (h : Told text out done s)
    (hclear : Clear text done s.mark.index) (hcloses : Closes s s') : Told text out done s' := by
  have hstay : s.cursor.Passes (fun _ => False) s'.cursor [] := by
    rw [hcloses.cursor]
    exact Passes.blank (BlankTo.refl _)
  have haccounts : Accounts text s'.mark.index (out ++ s'.queue) (done ++ []) := by
    refine h.toAccounts.pass h.reached hstay ?_ (fun _ hfalse => hfalse.elim) ?_ ?_
    · intro u hu
      rcases List.mem_append.1 hu with hu | hu
      · exact List.mem_append_left _ hu
      · exact List.mem_append_right _ (hcloses.kept u hu)
    · intro u hu
      rw [List.append_nil]
      rcases List.mem_append.1 hu with hu | hu
      · exact h.apart u (List.mem_append_left _ hu)
      · exact h.apart_of_owns hclear (hcloses.queued u hu)
    · intro a ha
      cases ha
  rw [List.append_nil] at haccounts
  refine ⟨haccounts, h.reached.trans hstay.reaches, ?_, ?_, ?_⟩
  · intro hopen
    exact absurd (hopen.symm.trans hcloses.finished) Bool.false_ne_true
  · intro k hk
    rw [hcloses.keys] at hk
    cases hk
  · intro _
    rw [hcloses.cursor]
    -- No permitted character reads as the end.
    cases hrest : s.cursor.rest with
    | nil => rfl
    | cons c rest =>
      have hshown := hcloses.shown
      rw [peek, hrest] at hshown
      have hmem : endChar ∈ text := by
        refine h.reached.suffix.subset ?_
        rw [hrest]
        exact hshown ▸ List.mem_cons_self
      exact absurd (hpermitted _ hmem) (by simp [TokenStream.Permitted, endChar])

theorem fetch (hpermitted : ∀ c ∈ text, TokenStream.Permitted c) (h : Told text out done s)
    (hopen : s.finished = false) (hfetch : s.fetch = .ok s') :
    Told text out (done ++ s.asides) s' := by
  have hgap := h.skipGap hopen
  have hclear := hgap.clear_mark (peek_skipGap s).1 (peek_skipGap s).2
  rw [Lexer.asides, ← List.append_assoc]
  rcases steps_fetch hfetch with ⟨hcloses, hnone⟩ | ⟨t, hsteps⟩
  · rw [hnone, List.append_nil]
    exact hgap.closes hpermitted hclear hcloses
  · exact hgap.steps hopen hclear hsteps

theorem ofText (cs : List Char) : Told cs [] [] (Lexer.ofText cs) := by
  refine ⟨⟨inOrder_nil.2 (Nat.le_refl _), ?_, ?_, ?_, ?_⟩, Reaches.refl _, ?_, ?_, ?_⟩
  · intro a ha
    cases ha
  · intro offset hoffset
    exact absurd hoffset (Nat.not_lt_zero _)
  · intro t ht
    rcases List.mem_singleton.1 ht with rfl
    exact Or.inl rfl
  · intro a ha
    cases ha
  · intro _ t ht
    rcases List.mem_singleton.1 ht with rfl
    exact ⟨Nat.le_refl _, Or.inl rfl⟩
  · intro k hk
    cases hk
  · intro hfinished
    cases hfinished

end Told
end Lexer

namespace TokenStream

open Lexer

def asidesFrom : Nat → Lexer → List Aside
  | 0, _ => []
  | fuel + 1, s =>
    match move s with
    | .finish => []
    | .stop _ => []
    | .read s =>
      match s.fetch with
      | .ok next => s.asides ++ asidesFrom fuel next
      | .error _ => []
    | .take _ s => asidesFrom fuel s

def asides (cs : List Char) : List Aside :=
  asidesFrom (steps cs) (Lexer.ofText cs)

/-- A run with enough steps that nothing stops accounts for the whole text. -/
theorem accounts_runFrom {text : List Char} (hpermitted : ∀ c ∈ text, Permitted c) {fuel : Nat}
    {out : List Token} {done : List Aside} {s : Lexer} (h : Told text out done s)
    (hfuel : s.work < fuel) (hhalt : (runFrom fuel s).halt = none) :
    Accounts text text.length (out ++ (runFrom fuel s).tokens) (done ++ asidesFrom fuel s) := by
  -- On the steps, of which there are always more than there is work.
  induction fuel generalizing out done s with
  | zero => exact absurd hfuel (Nat.not_lt_zero _)
  | succ fuel ih =>
    have htake : ∀ (s' : Lexer) (t : Token) (rest : List Token), Told text out done s' →
        s'.work ≤ s.work → s'.queue = t :: rest →
        (runFrom fuel { s' with queue := rest, taken := s'.taken + 1 }).halt = none →
        Accounts text text.length
          (out ++ ((runFrom fuel { s' with queue := rest, taken := s'.taken + 1 }).cons t).tokens)
          (done ++ asidesFrom fuel { s' with queue := rest, taken := s'.taken + 1 }) := by
      intro s' t rest hs' hwork hqueue hstop
      have hless := work_take hqueue
      have hrest := ih (hs'.take hqueue) (by omega) hstop
      rw [List.append_assoc] at hrest
      exact hrest
    rw [runFrom_succ] at hhalt ⊢
    rw [asidesFrom]
    generalize hmove : move s = next at hhalt ⊢
    have hmoves : Moves s next := hmove ▸ moves_move s
    cases hmoves with
    | finish hqueue hfinished =>
      -- The cursor stands at the end of the text.
      have hlength : s.mark.index = text.length := by
        have hend : s.mark.index + s.cursor.rest.length = 0 + text.length := h.reached.end_eq
        rw [h.ended hfinished, List.length_nil] at hend
        omega
      have haccounts := h.toAccounts
      rw [hqueue, hlength] at haccounts
      rw [List.append_nil]
      exact haccounts
    | stop hopen hdrop => cases hhalt
    | @read fresh hopen hfresh =>
      have htold : Told text out done fresh ∧ Grows 0 s fresh := by
        rcases hfresh with rfl | hdrop
        · exact ⟨h, Grows.refl _⟩
        · exact ⟨h.dropStale hdrop, grows_dropStale hdrop⟩
      have hopen' : fresh.finished = false := htold.2.finished.trans hopen
      rw [follow, readOn] at hhalt ⊢
      dsimp only
      cases hfetch : fresh.fetch with
      | error halt =>
        rw [hfetch] at hhalt
        cases hhalt
      | ok next =>
        rw [hfetch] at hhalt
        have hless := (nearer_fetch hopen' hfetch).work
        have hle := htold.2.work_le
        have hrest := ih (htold.1.fetch hpermitted hopen' hfetch) (by omega) hhalt
        rw [List.append_assoc] at hrest
        exact hrest
    | takeLast hfinished hqueue => exact htake s _ _ h (Nat.le_refl _) hqueue hhalt
    | @take fresh t rest hopen hdrop hdecided hqueue =>
      exact htake fresh t rest (h.dropStale hdrop) (grows_dropStale hdrop).work_le hqueue hhalt

/-- The tokens and the asides of a text that nothing stops account for it. -/
theorem accounts_ofChars {cs : List Char} (h : (ofChars cs).halt = none) :
    Accounts cs cs.length (ofChars cs).tokens (asides cs) := by
  unfold ofChars at h ⊢
  split at h
  · cases h
  · rename_i hpermitted
    have hwork : (Lexer.ofText cs).work = 5 * cs.length + 9 := rfl
    have hsteps : steps cs = 8 * cs.length + 16 := rfl
    exact accounts_runFrom (forbiddenFrom_eq_none.1 hpermitted) (Told.ofText cs) (by omega) h

end TokenStream
end Yaml
end YamlServer
