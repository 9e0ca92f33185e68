import YamlServer.Proofs.InOrder
import YamlServer.Proofs.Yaml.TokenStep

/-!
# The tokens of a text stand in order

Tokens leave the queue in the order in which they stand in the text, although a key token is put in
front of tokens that were queued before it. The reason is what is kept of a possible key: the tokens
queued before it stop at its mark or earlier, the tokens queued after it start there or later. So
there is a gap of the queue at its mark, and what is put there has no width.

* `Lexer.Steady.fetch`: reading on keeps it.
* `TokenStream.inOrder_ofChars`: the tokens of a text stand in order.
-/

namespace YamlServer
namespace Yaml

open Cursor

def Token.extent (t : Token) : Nat × Nat :=
  (t.start.index, t.stop.index)

/-- The token numbered by the key is queued or comes next, and the queue has a gap at its mark. -/
structure SimpleKey.Fits (queue : List Token) (taken : Nat) (k : SimpleKey) : Prop where
  lower : taken ≤ k.number
  upper : k.number ≤ taken + queue.length
  before : ∀ t ∈ queue.take (k.number - taken), t.stop.index ≤ k.mark.index
  after : ∀ t ∈ queue.drop (k.number - taken), k.mark.index ≤ t.start.index

namespace SimpleKey
namespace Fits

variable {queue : List Token} {taken : Nat} {k : SimpleKey}

/-- A token queued at the end does not move the gap. -/
theorem push (h : k.Fits queue taken) {t : Token} (ht : k.mark.index ≤ t.start.index) :
    k.Fits (queue ++ [t]) taken := by
  have hupper := h.upper
  have hlower := h.lower
  have hgap : k.number - taken ≤ queue.length := by omega
  refine ⟨h.lower, ?_, ?_, ?_⟩
  · simp only [List.length_append, List.length_cons, List.length_nil]
    omega
  · rw [List.take_append_of_le_length hgap]
    exact h.before
  · rw [List.drop_append_of_le_length hgap]
    intro u hu
    rcases List.mem_append.1 hu with hu | hu
    · exact h.after u hu
    · rcases List.mem_singleton.1 hu with rfl
      exact ht

/-- Tokens put at the gap of an inner key do not move the gap of an outer one. -/
theorem insert {k' : SimpleKey} {tokens : List Token} (h : k.Fits queue taken)
    (h' : k'.Fits queue taken) (hnumber : k.number ≤ k'.number)
    (htokens : ∀ t ∈ tokens, k.mark.index ≤ t.start.index) :
    k.Fits (queue.take (k'.number - taken) ++ tokens ++ queue.drop (k'.number - taken)) taken := by
  have hupper := h'.upper
  have hlower := h.lower
  have hlength : (queue.take (k'.number - taken)).length = k'.number - taken :=
    List.length_take_of_le (by omega)
  have hgap : k.number - taken ≤ (queue.take (k'.number - taken)).length := by omega
  refine ⟨h.lower, ?_, ?_, ?_⟩
  · simp only [List.length_append, List.length_drop]
    omega
  · rw [List.append_assoc, List.take_append_of_le_length hgap, List.take_take,
      Nat.min_eq_left (by omega)]
    exact h.before
  · rw [List.append_assoc, List.drop_append_of_le_length hgap]
    intro t ht
    rcases List.mem_append.1 ht with ht | ht
    · -- A token between the two gaps is queued after the outer one.
      refine h.after t ?_
      rw [List.drop_take] at ht
      exact List.mem_of_mem_take ht
    · rcases List.mem_append.1 ht with ht | ht
      · exact htokens t ht
      · exact h.after t (List.drop_subset_drop_left queue (by omega) ht)

/-- Taking the head of the queue leaves the gap of a key that stands behind it. -/
theorem tail {t : Token} {rest : List Token} (h : k.Fits (t :: rest) taken)
    (hnumber : k.number ≠ taken) : k.Fits rest (taken + 1) ∧ t.stop.index ≤ k.mark.index := by
  have hlower := h.lower
  have hupper := h.upper
  have hbefore := h.before
  have hafter := h.after
  -- The head stood before the gap, so the gap moves to the front by one.
  have hgap : k.number - taken = (k.number - (taken + 1)) + 1 := by omega
  rw [hgap, List.take_succ_cons] at hbefore
  rw [hgap, List.drop_succ_cons] at hafter
  simp only [List.length_cons] at hupper
  refine ⟨⟨by omega, by omega, ?_, hafter⟩, hbefore t List.mem_cons_self⟩
  intro u hu
  exact hbefore u (List.mem_cons_of_mem _ hu)

end Fits
end SimpleKey

namespace Lexer

/-- What holds of the state between two tokens. -/
structure Steady (lo : Nat) (text : List Char) (s : Lexer) : Prop where
  reached : (Cursor.ofText text).Reaches s.cursor
  tokens : InOrder Token.extent lo s.mark.index s.queue
  keys : ∀ k ∈ s.keys, k.1 ≤ s.flow ∧ lo ≤ k.2.mark.index ∧ k.2.mark.index ≤ s.mark.index ∧
    k.2.Fits s.queue s.taken
  /-- A key of an inner flow level stands after those of the outer ones. -/
  nested : ∀ k ∈ s.keys, ∀ k' ∈ s.keys, k.1 < k'.1 →
    k.2.number ≤ k'.2.number ∧ k.2.mark.index ≤ k'.2.mark.index
  closed : s.finished = true → s.keys = []
  /-- The end of the stream is queued last of all. -/
  unended : s.finished = false → ∀ t ∈ s.queue, t.kind ≠ .streamEnd

namespace Steady

variable {lo : Nat} {text : List Char} {s s' : Lexer}

/-- Moving on, forgetting keys and changing the level keep the state steady, as long as no key is
left above the level. -/
theorem forget (h : Steady lo text s) (hcursor : s.cursor.Reaches s'.cursor)
    (hqueue : s'.queue = s.queue) (htaken : s'.taken = s.taken)
    (hfinished : s'.finished = s.finished)
    (hkeys : ∀ k ∈ s'.keys, k ∈ s.keys ∧ k.1 ≤ s'.flow) : Steady lo text s' := by
  have hindex : s.mark.index ≤ s'.mark.index := hcursor.index_le
  refine ⟨h.reached.trans hcursor, ?_, ?_, ?_, ?_, ?_⟩
  · rw [hqueue]
    exact h.tokens.mono (Nat.le_refl lo) hindex
  · intro k hk
    rcases h.keys k (hkeys k hk).1 with ⟨-, hlo, hmark, hfits⟩
    rw [hqueue, htaken]
    exact ⟨(hkeys k hk).2, hlo, Nat.le_trans hmark hindex, hfits⟩
  · intro k hk k' hk'
    exact h.nested k (hkeys k hk).1 k' (hkeys k' hk').1
  -- No key is left to forget once the stream is finished.
  · intro hclosed
    rw [hfinished] at hclosed
    refine List.eq_nil_iff_forall_not_mem.2 ?_
    intro k hk
    have hmem := (hkeys k hk).1
    rw [h.closed hclosed] at hmem
    cases hmem
  · rw [hqueue, hfinished]
    exact h.unended

/-- Queueing a token that starts at the cursor or later, and moving to where it stops or later. -/
theorem push (h : Steady lo text s) {t : Token} {next : Cursor} (keyAllowed : Bool)
    (hnext : s.cursor.Reaches next) (hstart : s.mark.index ≤ t.start.index)
    (hstop : t.start.index ≤ t.stop.index) (hend : t.stop.index ≤ next.mark.index)
    (hkind : t.kind ≠ .streamEnd) :
    Steady lo text { s.push t with cursor := next, keyAllowed := keyAllowed } := by
  have hindex : s.mark.index ≤ next.mark.index := hnext.index_le
  refine ⟨h.reached.trans hnext, ?_, ?_, h.nested, h.closed, ?_⟩
  · exact h.tokens.append (inOrder_cons.2 ⟨hstart, hstop, inOrder_nil.2 hend⟩)
  · intro k hk
    rcases h.keys k hk with ⟨hflow, hlo, hmark, hfits⟩
    exact ⟨hflow, hlo, Nat.le_trans hmark hindex, hfits.push (Nat.le_trans hmark hstart)⟩
  · intro hopen u hu
    rcases List.mem_append.1 hu with hu | hu
    · exact h.unended hopen u hu
    · rcases List.mem_singleton.1 hu with rfl
      exact hkind

theorem pushReads (h : Steady lo text s) {t : Token} {next : Cursor} (keyAllowed : Bool)
    (ht : Reads s.cursor t next) :
    Steady lo text { s.push t with cursor := next, keyAllowed := keyAllowed } := by
  have hstart : t.start.index = s.mark.index := congrArg Mark.index ht.start
  have hstop : s.mark.index ≤ t.stop.index := ht.stop.le_index
  exact h.push keyAllowed ht.reaches (by omega) (by omega) ht.stop.index_le ht.inner

theorem pushHere (h : Steady lo text s) (kind : TokenKind) (hkind : kind ≠ .streamEnd) :
    Steady lo text (s.pushHere kind) :=
  h.push s.keyAllowed (Reaches.refl s.cursor) (Nat.le_refl _) (Nat.le_refl _) (Nat.le_refl _) hkind

/-! ## Keys -/

theorem dropStale (h : Steady lo text s) (hdrop : s.dropStale = .ok s') : Steady lo text s' := by
  rcases dropStale_eq hdrop with rfl
  refine h.forget (Reaches.refl _) rfl rfl rfl ?_
  intro k hk
  have hmem := (List.mem_filter.1 hk).1
  exact ⟨hmem, (h.keys k hmem).1⟩

/-- Without the keys of the current flow level, those of the outer levels are left. -/
theorem key_below (h : Steady lo text s) {k : Int × SimpleKey}
    (hk : k ∈ s.keys.filter fun k => k.1 != s.flow) : k ∈ s.keys ∧ k.1 < s.flow := by
  rcases List.mem_filter.1 hk with ⟨hmem, hlevel⟩
  have hle := (h.keys k hmem).1
  have hne : k.1 ≠ s.flow := by simpa using hlevel
  exact ⟨hmem, by omega⟩

/-- Forgetting the current key leaves the keys of the outer levels. -/
theorem keys_dropKey (h : Steady lo text s) (hdrop : s.dropKey = .ok s') :
    ∀ k ∈ s'.keys, k ∈ s.keys ∧ k.1 < s.flow := by
  unfold Lexer.dropKey at hdrop
  split at hdrop
  · split at hdrop
    · cases hdrop
    · cases hdrop
      exact fun k hk => h.key_below hk
  · rename_i hkey
    cases hdrop
    intro k hk
    have hnone := List.find?_eq_none.1 (Option.map_eq_none_iff.1 hkey) k hk
    have hne : k.1 ≠ s.flow := by simpa using hnone
    have hle := (h.keys k hk).1
    exact ⟨hk, by omega⟩

theorem dropKey (h : Steady lo text s) (hdrop : s.dropKey = .ok s') : Steady lo text s' := by
  have hkeys := h.keys_dropKey hdrop
  rw [dropKey_eq hdrop]
  refine h.forget (Reaches.refl _) rfl rfl rfl ?_
  intro k hk
  exact ⟨(hkeys k hk).1, Int.le_of_lt (hkeys k hk).2⟩

/-- A new key numbers the token that is queued next, so its gap is the end of the queue. -/
theorem saveKey (h : Steady lo text s) (hopen : s.finished = false) (hsave : s.saveKey = .ok s') :
    Steady lo text s' := by
  unfold Lexer.saveKey at hsave
  split at hsave
  · rcases Outcome.bind_eq_ok.1 hsave with ⟨dropped, hdrop, hrest⟩
    have hsteady := h.dropKey hdrop
    have hfinished : dropped.finished = false := by
      rw [dropKey_eq hdrop]
      exact hopen
    cases hrest
    have hfits : (⟨dropped.taken + dropped.queue.length,
        !s.inFlow && s.indent == Int.ofNat s.mark.column, dropped.mark⟩ : SimpleKey).Fits
          dropped.queue dropped.taken := by
      refine ⟨Nat.le_add_right _ _, Nat.le_refl _, ?_, ?_⟩
      · intro t ht
        exact (hsteady.tokens.inside t (List.mem_of_mem_take ht)).2.2
      · intro t ht
        simp at ht
    refine ⟨hsteady.reached, hsteady.tokens, ?_, ?_, ?_, hsteady.unended⟩
    · intro k hk
      rcases List.mem_append.1 hk with hk | hk
      · exact hsteady.keys k hk
      · rcases List.mem_singleton.1 hk with rfl
        exact ⟨Int.le_refl _, hsteady.tokens.le, Nat.le_refl _, hfits⟩
    · intro k hk k' hk' hlevel
      rcases List.mem_append.1 hk with hk | hk
      · rcases List.mem_append.1 hk' with hk' | hk'
        · exact hsteady.nested k hk k' hk' hlevel
        · rcases List.mem_singleton.1 hk' with rfl
          have hold := hsteady.keys k hk
          exact ⟨hold.2.2.2.upper, hold.2.2.1⟩
      · -- No key has a level above the current one.
        rcases List.mem_singleton.1 hk with rfl
        rcases List.mem_append.1 hk' with hk' | hk'
        · have hle := (hsteady.keys k' hk').1
          simp only at hlevel
          omega
        · rcases List.mem_singleton.1 hk' with rfl
          exact absurd hlevel (Int.lt_irrefl _)
    · intro hclosed
      simp only [hfinished, Bool.false_eq_true] at hclosed
  · cases hsave
    exact h

/-- Putting tokens of no width in front of a key, once only the keys of outer levels are left. -/
theorem insertBefore (h : Steady lo text s) {k : SimpleKey} {kinds : List TokenKind}
    (hkinds : TokenKind.streamEnd ∉ kinds) (hlo : lo ≤ k.mark.index)
    (hmark : k.mark.index ≤ s.mark.index) (hfits : k.Fits s.queue s.taken)
    (hkeys : ∀ k' ∈ s.keys, k'.2.number ≤ k.number ∧ k'.2.mark.index ≤ k.mark.index) :
    Steady lo text (s.insertBefore k kinds) := by
  have hinserted : ∀ t ∈ kinds.map fun kind => Token.mk kind k.mark k.mark,
      t.start = k.mark ∧ t.stop = k.mark := by
    intro t ht
    rcases List.mem_map.1 ht with ⟨kind, -, rfl⟩
    exact ⟨rfl, rfl⟩
  -- Three stretches in order: up to the mark of the key, at it, and from it on.
  have hbefore : InOrder Token.extent lo k.mark.index (s.queue.take (k.number - s.taken)) := by
    refine ⟨hlo, ?_, h.tokens.ordered.sublist (List.take_sublist _ _)⟩
    intro t ht
    have ht' := h.tokens.inside t (List.mem_of_mem_take ht)
    exact ⟨ht'.1, ht'.2.1, hfits.before t ht⟩
  have hmiddle : InOrder Token.extent k.mark.index k.mark.index
      (kinds.map fun kind => Token.mk kind k.mark k.mark) := by
    refine ⟨Nat.le_refl _, ?_, List.pairwise_map.2 (List.pairwise_of_forall ?_)⟩
    · intro t ht
      simp only [Token.extent, hinserted t ht, Nat.le_refl, and_self]
    · intro kind kind'
      exact Nat.le_refl _
  have hafter : InOrder Token.extent k.mark.index s.mark.index
      (s.queue.drop (k.number - s.taken)) := by
    refine ⟨hmark, ?_, h.tokens.ordered.sublist (List.drop_sublist _ _)⟩
    intro t ht
    have ht' := h.tokens.inside t (List.mem_of_mem_drop ht)
    exact ⟨hfits.after t ht, ht'.2.1, ht'.2.2⟩
  refine ⟨h.reached, (hbefore.append hmiddle).append hafter, ?_, h.nested, h.closed, ?_⟩
  · intro k' hk'
    rcases h.keys k' hk' with ⟨hflow, hlo', hmark', hfits'⟩
    refine ⟨hflow, hlo', hmark', hfits'.insert hfits (hkeys k' hk').1 ?_⟩
    intro t ht
    rw [(hinserted t ht).1]
    exact (hkeys k' hk').2
  · intro hopen t ht
    rcases List.mem_append.1 ht with ht | ht
    · rcases List.mem_append.1 ht with ht | ht
      · exact h.unended hopen t (List.mem_of_mem_take ht)
      · rcases List.mem_map.1 ht with ⟨kind, hkind, rfl⟩
        intro heq
        exact hkinds (heq ▸ hkind)
    · exact h.unended hopen t (List.mem_of_mem_drop ht)

/-! ## Indentation -/

theorem reindent (h : Steady lo text s) (indent : Int) (outer : List Int) :
    Steady lo text { s with indent := indent, outer := outer } :=
  ⟨h.reached, h.tokens, h.keys, h.nested, h.closed, h.unended⟩

theorem unwind (h : Steady lo text s) (column : Int) : Steady lo text (s.unwind column) := by
  refine unwind_induction column ?_ h
  intro s indent rest _ h
  exact (h.pushHere .blockEnd TokenKind.noConfusion).reindent indent rest

/-- In a flow collection no block collection is opened. -/
theorem openOutsideFlow (h : Steady lo text s) (kind : TokenKind) (hkind : kind ≠ .streamEnd) :
    Steady lo text (if s.inFlow then s else s.openHere kind) := by
  rcases openOutsideFlow_cases kind s with heq | heq
  · rw [heq]
    exact h
  · rw [heq]
    exact (h.reindent _ _).pushHere kind hkind

/-! ## Reading one token -/

theorem fetchStreamEnd (h : Steady lo text s) (hfetch : s.fetchStreamEnd = .ok s') :
    Steady lo text s' := by
  rcases Outcome.bind_eq_ok.1 hfetch with ⟨dropped, hdrop, hrest⟩
  cases hrest
  have hkeyless : Steady lo text { dropped with keyAllowed := false, keys := [] } := by
    refine ((h.unwind (-1)).dropKey hdrop).forget (Reaches.refl _) rfl rfl rfl ?_
    intro k hk
    cases hk
  -- The end of the stream is queued with the last step, after which no other one is read.
  refine ⟨hkeyless.reached, ?_, ?_, hkeyless.nested, fun _ => rfl, fun hopen => by cases hopen⟩
  · exact hkeyless.tokens.append
      (inOrder_cons.2 ⟨Nat.le_refl _, Nat.le_refl _, inOrder_nil.2 (Nat.le_refl _)⟩)
  · intro k hk
    cases hk

/-- A colon after a possible key: the key of the current level stands behind all the others. -/
theorem putKey (h : Steady lo text s) {k : SimpleKey} (hkey : s.key? = some k) :
    Steady lo text (s.putKey k) := by
  rcases Option.map_eq_some_iff.1 hkey with ⟨⟨level, k'⟩, hfind, rfl⟩
  have hmem := List.mem_of_find?_eq_some hfind
  have hlevel : level = s.flow := by simpa using List.find?_some hfind
  rcases h.keys _ hmem with ⟨-, hlo, hmark, hfits⟩
  have houter : ∀ k ∈ s.keys.filter fun k => k.1 != s.flow,
      k.2.number ≤ k'.number ∧ k.2.mark.index ≤ k'.mark.index := by
    intro k hk
    rcases h.key_below hk with ⟨hk, hbelow⟩
    exact h.nested k hk _ hmem (hlevel ▸ hbelow)
  have hrest : Steady lo text { s with keys := s.keys.filter fun k => k.1 != s.flow } := by
    refine h.forget (Reaches.refl _) rfl rfl rfl ?_
    intro k hk
    exact ⟨(h.key_below hk).1, Int.le_of_lt (h.key_below hk).2⟩
  rcases putKey_cases k' s with ⟨opened, kinds, heq, ⟨rfl, rfl⟩ | ⟨rfl, rfl⟩⟩
  · rw [heq]
    exact hrest.insertBefore (by simp) hlo hmark hfits houter
  · rw [heq]
    exact (hrest.reindent _ _).insertBefore (by simp) hlo hmark hfits houter

theorem readies (h : Steady lo text s) (hopen : s.finished = false) {kind : TokenKind}
    (hready : Readies s kind s') : Steady lo text s' := by
  cases hready with
  | margin hdrop => exact (h.unwind (-1)).dropKey hdrop
  | part _ hsave => exact h.saveKey hopen hsave
  | forget hdrop => exact h.dropKey hdrop
  | entry hstart hdrop =>
    refine (h.openOutsideFlow _ ?_).dropKey hdrop
    rcases hstart with rfl | rfl <;> exact TokenKind.noConfusion
  | value hkey => exact h.putKey hkey

theorem fetches (h : Steady lo text s) (hopen : s.finished = false) {t : Token}
    (hfetches : Fetches s t s') : Steady lo text s' := by
  cases hfetches with
  | @read ready next flow keyAllowed hready hshows hflow =>
    have hsteady := h.readies hopen hready
    -- Where a level is left, the keys that are left are those of outer ones.
    have hlevel : Steady lo text { ready with flow := flow } := by
      refine hsteady.forget (Reaches.refl _) rfl rfl rfl fun k hk => ⟨hk, ?_⟩
      have hle := (hsteady.keys k hk).1
      dsimp only
      rcases hflow with hflow | hflow | ⟨hflow, hdrop⟩
      · omega
      · omega
      · have hbelow := (h.keys_dropKey hdrop k hk).2
        have hsame : ready.flow = s.flow := by rw [dropKey_eq hdrop]
        omega
    exact hlevel.pushReads keyAllowed (hready.cursor ▸ hshows.reads)

theorem fetchHere (h : Steady lo text s) (hopen : s.finished = false)
    (hfetch : s.fetchHere = .ok s') : Steady lo text s' := by
  rcases fetches_fetchHere hfetch with ⟨-, hend⟩ | ⟨-, t, hfetches⟩
  · exact h.fetchStreamEnd hend
  · exact h.fetches hopen hfetches

end Steady

theorem reaches_gapFrom (inComment : Bool) (cs : List Char) (m : Mark) (broke : Bool) :
    (⟨cs, m⟩ : Cursor).Reaches (gapFrom inComment cs m broke).1 := by
  -- On the characters: each is passed over, or ends the gap.
  induction cs generalizing inComment m broke with
  | nil => exact Reaches.refl _
  | cons a rest ih =>
    have hskip : (⟨a :: rest, m⟩ : Cursor).Reaches ⟨rest, m.after a (rest.headD endChar)⟩ :=
      reaches_skip ⟨a :: rest, m⟩
    rw [gapFrom]
    split
    · exact hskip.trans (ih _ _ _)
    · split
      · exact hskip.trans (ih _ _ _)
      · split
        · exact hskip.trans (ih _ _ _)
        · split
          · exact hskip.trans (ih _ _ _)
          · exact Reaches.refl _

theorem reaches_skipGap (s : Lexer) : s.cursor.Reaches s.skipGap.cursor := by
  unfold skipGap
  dsimp only
  refine Reaches.trans ?_ (reaches_gapFrom false _ _ false)
  split
  · exact reaches_skip s.cursor
  · exact Reaches.refl s.cursor

namespace Steady

variable {lo : Nat} {text : List Char} {s s' : Lexer}

theorem skipGap (h : Steady lo text s) : Steady lo text s.skipGap :=
  h.forget (reaches_skipGap s) rfl rfl rfl fun k hk => ⟨hk, (h.keys k hk).1⟩

theorem fetch (h : Steady lo text s) (hopen : s.finished = false) (hfetch : s.fetch = .ok s') :
    Steady lo text s' := by
  rcases Outcome.bind_eq_ok.1 hfetch with ⟨fresh, hfresh, hhere⟩
  have hsteady := (h.skipGap.dropStale hfresh).unwind (Int.ofNat fresh.mark.column)
  refine hsteady.fetchHere ?_ hhere
  rw [unwind_finished, dropStale_eq hfresh]
  exact hopen

/-- Taking the head of the queue, once it cannot become a key any more. -/
theorem take (h : Steady lo text s) {t : Token} {rest : List Token} (hqueue : s.queue = t :: rest)
    (hdecided : ∀ k ∈ s.keys, k.2.number ≠ s.taken) :
    lo ≤ t.start.index ∧ t.start.index ≤ t.stop.index ∧
      Steady t.stop.index text { s with queue := rest, taken := s.taken + 1 } := by
  have htokens := h.tokens
  rw [hqueue, inOrder_cons] at htokens
  refine ⟨htokens.1, htokens.2.1, h.reached, htokens.2.2, ?_, h.nested, h.closed, ?_⟩
  · intro k hk
    rcases h.keys k hk with ⟨hflow, -, hmark, hfits⟩
    rw [hqueue] at hfits
    have htail := hfits.tail (hdecided k hk)
    exact ⟨hflow, htail.2, hmark, htail.1⟩
  · intro hopen u hu
    exact h.unended hopen u (hqueue ▸ List.mem_cons_of_mem _ hu)

theorem ofText (cs : List Char) : Steady 0 cs (Lexer.ofText cs) := by
  refine ⟨Reaches.refl _, ?_, ?_, ?_, fun _ => rfl, ?_⟩
  · exact inOrder_cons.2 ⟨Nat.le_refl _, Nat.le_refl _, inOrder_nil.2 (Nat.le_refl _)⟩
  · intro k hk
    cases hk
  · intro k hk
    cases hk
  · intro _ t ht
    rcases List.mem_singleton.1 ht with rfl
    exact TokenKind.noConfusion

end Steady
end Lexer

/-! ## The stream -/

namespace TokenStream

open Lexer

/-- What a run does next: it has come to its end, a fault stops it, it reads on from a state, or it
takes a token from the queue and goes on without it. -/
inductive Move where
  | finish
  | stop (halt : Halt)
  | read (s : Lexer)
  | take (t : Token) (s : Lexer)

/-- The next move. The head of the queue waits while it may become a key. -/
def move (s : Lexer) : Move :=
  match s.queue with
  | [] => if s.finished then .finish else .read s
  | t :: rest =>
    if s.finished then .take t { s with queue := rest, taken := s.taken + 1 }
    else
      match s.dropStale with
      | .error halt => .stop halt
      | .ok fresh =>
        if fresh.headUndecided then .read fresh
        else .take t { fresh with queue := rest, taken := fresh.taken + 1 }

def readOn (fuel : Nat) (s : Lexer) : TokenStream :=
  match s.fetch with
  | .ok next => runFrom fuel next
  | .error halt => ⟨[], some halt⟩

def follow (fuel : Nat) : Move → TokenStream
  | .finish => ⟨[], none⟩
  | .stop halt => ⟨[], some halt⟩
  | .read s => readOn fuel s
  | .take t s => (runFrom fuel s).cons t

theorem runFrom_succ (fuel : Nat) (s : Lexer) : runFrom (fuel + 1) s = follow fuel (move s) := by
  rw [runFrom, move]
  cases s.queue with
  | nil => cases s.finished <;> rfl
  | cons t rest =>
    dsimp only
    by_cases hfinished : s.finished = true
    · rw [if_pos hfinished, if_pos hfinished, follow]
    · rw [if_neg hfinished, if_neg hfinished]
      cases s.dropStale with
      | error halt => rfl
      | ok fresh =>
        dsimp only
        by_cases hundecided : fresh.headUndecided = true
        · rw [if_pos hundecided, if_pos hundecided, follow]
          rfl
        · rw [if_neg hundecided, if_neg hundecided, follow]

/-- When each move is made. Before the stream is finished, a run may first forget the keys out of
reach. -/
inductive Moves (s : Lexer) : Move → Prop where
  | finish : s.queue = [] → s.finished = true → Moves s .finish
  | stop {halt : Halt} : s.finished = false → s.dropStale = .error halt → Moves s (.stop halt)
  | read {fresh : Lexer} : s.finished = false → fresh = s ∨ s.dropStale = .ok fresh →
      Moves s (.read fresh)
  | takeLast {t : Token} {rest : List Token} : s.finished = true → s.queue = t :: rest →
      Moves s (.take t { s with queue := rest, taken := s.taken + 1 })
  | take {fresh : Lexer} {t : Token} {rest : List Token} : s.finished = false →
      s.dropStale = .ok fresh → fresh.headUndecided = false → fresh.queue = t :: rest →
      Moves s (.take t { fresh with queue := rest, taken := fresh.taken + 1 })

theorem moves_move (s : Lexer) : Moves s (move s) := by
  unfold move
  cases hqueue : s.queue with
  | nil =>
    cases hfinished : s.finished with
    | true => exact Moves.finish hqueue hfinished
    | false => exact Moves.read hfinished (Or.inl rfl)
  | cons t rest =>
    dsimp only
    by_cases hfinished : s.finished = true
    · rw [if_pos hfinished]
      exact Moves.takeLast hfinished hqueue
    · have hopen : s.finished = false := Bool.eq_false_iff.2 hfinished
      rw [if_neg hfinished]
      cases hfresh : s.dropStale with
      | error halt => exact Moves.stop hopen hfresh
      | ok fresh =>
        dsimp only
        by_cases hundecided : fresh.headUndecided = true
        · rw [if_pos hundecided]
          exact Moves.read hopen (Or.inr hfresh)
        · have hqueue' : fresh.queue = t :: rest := by
            rw [dropStale_eq hfresh]
            exact hqueue
          rw [if_neg hundecided]
          exact Moves.take hopen hfresh (Bool.eq_false_iff.2 hundecided) hqueue'

/-- What one step of a run does from a steady state: it comes to an end, a fault stops it, it reads
on, or it takes the head of the queue, which is the end of the stream only if nothing is left to
read. -/
theorem runFrom_cases {lo : Nat} {text : List Char} {s : Lexer} (fuel : Nat)
    (h : Steady lo text s) :
    runFrom (fuel + 1) s = ⟨[], none⟩ ∨
      (∃ s' halt, runFrom (fuel + 1) s = ⟨[], some halt⟩ ∧ Steady lo text s' ∧
        s'.finished = false ∧ (s'.dropStale = .error halt ∨ s'.fetch = .error halt)) ∨
      (∃ next, runFrom (fuel + 1) s = runFrom fuel next ∧ Steady lo text next) ∨
      ∃ t next, runFrom (fuel + 1) s = (runFrom fuel next).cons t ∧
        lo ≤ t.start.index ∧ t.start.index ≤ t.stop.index ∧ Steady t.stop.index text next ∧
        (t.kind = .streamEnd → next.finished = true) := by
  rw [runFrom_succ]
  generalize hmove : move s = next
  have hmoves : Moves s next := hmove ▸ moves_move s
  cases hmoves with
  | finish hqueue hfinished => exact Or.inl rfl
  | stop hopen hdrop => exact Or.inr (Or.inl ⟨s, _, rfl, h, hopen, Or.inl hdrop⟩)
  | @read fresh hopen hfresh =>
    have hsteady : Steady lo text fresh ∧ fresh.finished = false := by
      rcases hfresh with rfl | hdrop
      · exact ⟨h, hopen⟩
      · refine ⟨h.dropStale hdrop, ?_⟩
        rw [dropStale_eq hdrop]
        exact hopen
    refine Or.inr ?_
    rw [follow, readOn]
    cases hfetch : fresh.fetch with
    | ok next => exact Or.inr (Or.inl ⟨next, rfl, hsteady.1.fetch hsteady.2 hfetch⟩)
    | error halt => exact Or.inl ⟨fresh, halt, rfl, hsteady.1, hsteady.2, Or.inr hfetch⟩
  | takeLast hfinished hqueue =>
    -- No key is left once the stream is finished.
    have hkeys : ∀ k ∈ s.keys, k.2.number ≠ s.taken := by
      rw [h.closed hfinished]
      intro k hk
      cases hk
    rcases h.take hqueue hkeys with ⟨hlo, hstop, hrest⟩
    exact Or.inr (Or.inr (Or.inr ⟨_, _, rfl, hlo, hstop, hrest, fun _ => hfinished⟩))
  | @take fresh t rest hopen hdrop hdecided hqueue =>
    have hsteady := h.dropStale hdrop
    have hfresh : fresh.finished = false := by
      rw [dropStale_eq hdrop]
      exact hopen
    have hkeys : ∀ k ∈ fresh.keys, k.2.number ≠ fresh.taken := by
      intro k hk hnumber
      have hundecided : fresh.headUndecided = true :=
        List.any_eq_true.2 ⟨k, hk, by simpa using hnumber⟩
      exact absurd (hdecided.symm.trans hundecided) Bool.false_ne_true
    rcases hsteady.take hqueue hkeys with ⟨hlo, hstop, hrest⟩
    refine Or.inr (Or.inr (Or.inr ⟨t, _, rfl, hlo, hstop, hrest, ?_⟩))
    intro hkind
    exact absurd hkind (hsteady.unended hfresh t (hqueue ▸ List.mem_cons_self))

/-- Whatever the number of steps, the tokens that leave the queue of a steady state stand in order
between the last one taken and the end of the text. -/
theorem inOrder_runFrom {lo : Nat} {text : List Char} {s : Lexer} (fuel : Nat)
    (h : Steady lo text s) : InOrder Token.extent lo text.length (runFrom fuel s).tokens := by
  have hle : ∀ {lo : Nat} {s : Lexer}, Steady lo text s → lo ≤ text.length := by
    intro lo s h
    have hcursor : lo ≤ s.cursor.mark.index := h.tokens.le
    have hend : s.cursor.mark.index + s.cursor.rest.length = 0 + text.length := h.reached.end_eq
    omega
  induction fuel generalizing lo s with
  | zero => exact inOrder_nil.2 (hle h)
  | succ fuel ih =>
    rcases runFrom_cases fuel h with
      hrun | ⟨s', halt, hrun, -⟩ | ⟨next, hrun, hnext⟩ | ⟨t, next, hrun, hlo, hstop, hnext, -⟩
    · rw [hrun]
      exact inOrder_nil.2 (hle h)
    · rw [hrun]
      exact inOrder_nil.2 (hle h)
    · rw [hrun]
      exact ih hnext
    · rw [hrun]
      exact inOrder_cons.2 ⟨hlo, hstop, ih hnext⟩

/-- Once the end of the stream is queued, nothing stops it. -/
theorem halt_of_finished {s : Lexer} (fuel : Nat) (h : s.finished = true) :
    (runFrom fuel s).halt = none := by
  -- Nothing is read any more, the queue is only emptied.
  induction fuel generalizing s with
  | zero => rfl
  | succ fuel ih =>
    rw [runFrom]
    dsimp only
    split
    · rw [if_pos h]
    · rw [if_pos h]
      exact ih h

/-- A stream that holds its end was not stopped. -/
theorem halt_of_streamEnd {lo : Nat} {text : List Char} {s : Lexer} (fuel : Nat)
    (h : Steady lo text s) {t : Token} (ht : t ∈ (runFrom fuel s).tokens)
    (hkind : t.kind = .streamEnd) :
    (runFrom fuel s).halt = none := by
  induction fuel generalizing lo s with
  | zero => rfl
  | succ fuel ih =>
    rcases runFrom_cases fuel h with
      hrun | ⟨s', halt, hrun, -⟩ | ⟨next, hrun, hnext⟩ |
        ⟨t', next, hrun, -, -, hnext, hfinished⟩
    · rw [hrun]
    · rw [hrun] at ht
      cases ht
    · rw [hrun] at ht ⊢
      exact ih hnext ht
    · rw [hrun] at ht ⊢
      rcases List.mem_cons.1 ht with rfl | ht
      · exact halt_of_finished fuel (hfinished hkind)
      · exact ih hnext ht

/-- The tokens of a text stand in order within it. -/
theorem inOrder_ofChars (cs : List Char) :
    InOrder Token.extent 0 cs.length (ofChars cs).tokens := by
  unfold ofChars
  split
  · exact inOrder_nil.2 (Nat.zero_le _)
  · exact inOrder_runFrom _ (Steady.ofText cs)

/-- If the tokens of a text hold the end of the stream, reading was not stopped. -/
theorem halt_ofChars_of_streamEnd {cs : List Char} {t : Token} (ht : t ∈ (ofChars cs).tokens)
    (hkind : t.kind = .streamEnd) : (ofChars cs).halt = none := by
  unfold ofChars at ht ⊢
  split at ht
  · cases ht
  · exact halt_of_streamEnd _ (Steady.ofText cs) ht hkind

end TokenStream
end Yaml
end YamlServer
