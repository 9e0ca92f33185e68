import YamlServer.Proofs.Yaml.Halts

/-!
# What readers pass over

A comment leaves no token behind. Readers pass over one in three places: between two tokens, on the
line of a directive, and after the header of a block scalar. Of a directive that has no meaning here
they also pass over the parameters, whatever these hold. Each such stretch of the text is an aside,
and what is said about a reader says where its asides are and that every other `#` belongs to the
token it reads.

* `gapAsides`, `directiveAsides`, `headerAsides`: the asides between two tokens, after a directive
  and in a block scalar.
* `Spells`: a token together with the asides that reading it passes over.
-/

namespace YamlServer
namespace Yaml

/-- Where a stretch of the text is passed over: between two tokens, on the line of a directive,
after the header of a block scalar, or as the parameters of a directive without a meaning. -/
inductive Place where
  | between
  | afterDirective
  | inHeader
  | parameters
deriving Repr, DecidableEq

/-- A stretch of the text that is passed over. -/
structure Aside where
  place : Place
  start : Nat
  stop : Nat
deriving Repr, DecidableEq

namespace Aside

def isComment (a : Aside) : Bool :=
  a.place != .parameters

def extent (a : Aside) : Nat × Nat :=
  (a.start, a.stop)

def Holds (a : Aside) (offset : Nat) : Prop :=
  a.start ≤ offset ∧ offset < a.stop

/-- An aside ends with its line, and a comment starts with its sign. -/
structure Stands (char? : Nat → Option Char) (a : Aside) : Prop where
  sign : a.isComment = true → char? a.start = some '#' ∧ a.start < a.stop
  inner : ∀ offset, a.Holds offset → ∃ c, char? offset = some c ∧ isBreak c = false
  close : ∀ c, char? a.stop = some c → isBreak c = true

/-- It matters only what the text is from the start of the aside on. -/
theorem Stands.congr {char? char?' : Nat → Option Char} {a : Aside} (h : a.Stands char?)
    (hle : a.start ≤ a.stop) (heq : ∀ offset, a.start ≤ offset → char? offset = char?' offset) :
    a.Stands char?' := by
  refine ⟨?_, ?_, ?_⟩
  · intro hcomment
    rw [← heq _ (Nat.le_refl _)]
    exact h.sign hcomment
  · intro offset hoffset
    rw [← heq _ hoffset.1]
    exact h.inner offset hoffset
  · intro c hc
    rw [← heq _ hle] at hc
    exact h.close c hc

end Aside

def Token.Holds (t : Token) (offset : Nat) : Prop :=
  t.start.index ≤ offset ∧ offset < t.stop.index

/-! ## The text from a cursor on -/

namespace Cursor

def charAt? (c : Cursor) (offset : Nat) : Option Char :=
  if c.mark.index ≤ offset then c.rest[offset - c.mark.index]? else none

@[simp]
theorem charAt?_ofText (cs : List Char) (offset : Nat) :
    (ofText cs).charAt? offset = cs[offset]? := by
  simp [charAt?, ofText]

@[simp]
theorem charAt?_mark (c : Cursor) : c.charAt? c.mark.index = c.rest.head? := by
  simp [charAt?, List.head?_eq_getElem?]

/-- Moving on changes nothing about what lies ahead. -/
theorem Reaches.charAt?_eq {c c' : Cursor} (h : c.Reaches c') {offset : Nat}
    (hoffset : c'.mark.index ≤ offset) : c'.charAt? offset = c.charAt? offset := by
  have hindex := h.index_le
  have hend := h.end_eq
  rcases h with ⟨n, rfl⟩
  rw [rest_advance, List.length_drop] at hend
  rw [charAt?, charAt?, if_pos hoffset, if_pos (Nat.le_trans hindex hoffset), rest_advance,
    List.getElem?_drop]
  -- Past the end of the text there is nothing, wherever the cursor is.
  by_cases hn : n ≤ c.rest.length
  · congr 1
    omega
  · rw [List.getElem?_eq_none (by omega), List.getElem?_eq_none (by omega)]

@[simp]
theorem index_skipWhile (p : Char → Bool) (c : Cursor) :
    (c.skipWhile p).mark.index = c.mark.index + (c.rest.takeWhile p).length := by
  have hend := (reaches_skipWhile p c).end_eq
  have hle := (List.takeWhile_sublist p (l := c.rest)).length_le
  have hrest : (c.skipWhile p).rest = c.rest.drop (c.rest.takeWhile p).length := by
    rw [skipWhile, skipWhileFrom_eq, rest_advance]
  rw [hrest, List.length_drop] at hend
  omega

/-- What is skipped and what is left after it. -/
theorem charAt?_skipWhile (p : Char → Bool) (c : Cursor) (k : Nat) :
    c.charAt? (c.mark.index + k) = (c.rest.takeWhile p ++ c.rest.dropWhile p)[k]? := by
  rw [charAt?, if_pos (Nat.le_add_right _ _), Nat.add_sub_cancel_left,
    List.takeWhile_append_dropWhile]

theorem inside_skipWhile (p : Char → Bool) (c : Cursor) {offset : Nat}
    (hlo : c.mark.index ≤ offset) (hhi : offset < (c.skipWhile p).mark.index) :
    ∃ a, c.charAt? offset = some a ∧ p a = true := by
  rcases Nat.le.dest hlo with ⟨k, rfl⟩
  rw [index_skipWhile] at hhi
  have hlt : k < (c.rest.takeWhile p).length := by omega
  rw [charAt?_skipWhile p, List.getElem?_append_left hlt, List.getElem?_eq_getElem hlt]
  exact ⟨_, rfl, List.all_eq_true.1 List.all_takeWhile _ (List.getElem_mem hlt)⟩

theorem stop_skipWhile (p : Char → Bool) (c : Cursor) {a : Char}
    (h : c.charAt? (c.skipWhile p).mark.index = some a) : p a = false := by
  rw [index_skipWhile, charAt?_skipWhile p, List.getElem?_append_right (Nat.le_refl _),
    Nat.sub_self, ← List.head?_eq_getElem?] at h
  have hhead := List.head?_dropWhile_not p c.rest
  rw [h] at hhead
  exact hhead

/-! ## Between two cursors -/

/-- The asides between two cursors stand in order, and every `#` outside of them is one of `P`. What
stands in the header of a block scalar is part of its token. -/
structure Passes (P : Nat → Prop) (c c' : Cursor) (asides : List Aside) : Prop where
  reaches : c.Reaches c'
  order : InOrder Aside.extent c.mark.index c'.mark.index asides
  stands : ∀ a ∈ asides, a.Stands c.charAt?
  signs : ∀ offset, c.mark.index ≤ offset → offset < c'.mark.index →
    c.charAt? offset = some '#' → P offset ∨ ∃ a ∈ asides, a.place ≠ .inHeader ∧ a.Holds offset

namespace Passes

variable {P : Nat → Prop} {c c' c'' : Cursor} {xs ys : List Aside}

theorem trans (h : c.Passes P c' xs) (h' : c'.Passes P c'' ys) : c.Passes P c'' (xs ++ ys) := by
  refine ⟨h.reaches.trans h'.reaches, h.order.append h'.order, ?_, ?_⟩
  · intro a ha
    rcases List.mem_append.1 ha with ha | ha
    · exact h.stands a ha
    · have hinside := h'.order.inside a ha
      refine (h'.stands a ha).congr hinside.2.1 ?_
      intro offset hoffset
      exact h.reaches.charAt?_eq (Nat.le_trans hinside.1 hoffset)
  · intro offset hlo hhi hsign
    by_cases hfirst : offset < c'.mark.index
    · refine (h.signs offset hlo hfirst hsign).imp_right ?_
      rintro ⟨a, ha, haside⟩
      exact ⟨a, List.mem_append_left _ ha, haside⟩
    · have hlo' := Nat.le_of_not_lt hfirst
      rw [← h.reaches.charAt?_eq hlo'] at hsign
      refine (h'.signs offset hlo' hhi hsign).imp_right ?_
      rintro ⟨a, ha, haside⟩
      exact ⟨a, List.mem_append_right _ ha, haside⟩

theorem bare (h : c.Reaches c')
    (hsigns : ∀ offset, c.mark.index ≤ offset → offset < c'.mark.index →
      c.charAt? offset = some '#' → P offset) : c.Passes P c' [] := by
  refine ⟨h, inOrder_nil.2 h.index_le, ?_, ?_⟩
  · intro a ha
    cases ha
  · intro offset hlo hhi hsign
    exact Or.inl (hsigns offset hlo hhi hsign)

theorem blank (h : c.BlankTo c') : c.Passes P c' [] := by
  refine bare h.reaches ?_
  intro offset hlo hhi hsign
  have hend := h.reaches.end_eq
  rcases h with ⟨n, rfl, hblank⟩
  rw [rest_advance, List.length_drop] at hend
  rw [charAt?, if_pos hlo] at hsign
  have hmem : '#' ∈ c.rest.take n := by
    refine List.mem_of_getElem? (i := offset - c.mark.index) ?_
    rw [List.getElem?_take_of_lt (by omega)]
    exact hsign
  rcases hblank _ hmem with hspace | hbreak
  · exact absurd hspace (by decide)
  · exact absurd hbreak (by decide)

end Passes

def comment (place : Place) (c : Cursor) : List Aside :=
  if c.peek == '#' then [⟨place, c.mark.index, c.skipComment.mark.index⟩] else []

@[simp]
theorem mem_comment {place : Place} {c : Cursor} {a : Aside} :
    a ∈ c.comment place ↔ c.peek = '#' ∧ a = ⟨place, c.mark.index, c.skipComment.mark.index⟩ := by
  unfold comment
  by_cases hpeek : c.peek = '#'
  · simp [hpeek]
  · simp [hpeek]

theorem stands_skipLine (place : Place) (c : Cursor)
    (hsign : place ≠ .parameters → c.peek = '#') :
    (⟨place, c.mark.index, (c.skipWhile fun a => !isBreak a).mark.index⟩ : Aside).Stands
      c.charAt? := by
  refine ⟨?_, ?_, ?_⟩
  · intro hcomment
    have hpeek := hsign (by simpa [Aside.isComment] using hcomment)
    have hrest := rest_eq_of_peek hpeek (by decide)
    refine ⟨?_, ?_⟩
    · rw [charAt?_mark, hrest]
      rfl
    · have hfirst : isBreak '#' = false := by decide
      simp [hrest, hfirst]
  · intro offset hoffset
    rcases inside_skipWhile _ c hoffset.1 hoffset.2 with ⟨a, ha, hbreak⟩
    exact ⟨a, ha, by simpa using hbreak⟩
  · intro a ha
    have hstop := stop_skipWhile (fun a => !isBreak a) c ha
    simpa using hstop

theorem passes_skipLine (P : Nat → Prop) {place : Place} (c : Cursor)
    (hsign : place ≠ .parameters → c.peek = '#')
    (hheader : place = .inHeader → ∀ offset, c.mark.index ≤ offset →
      offset < (c.skipWhile fun a => !isBreak a).mark.index → P offset) :
    c.Passes P (c.skipWhile fun a => !isBreak a)
      [⟨place, c.mark.index, (c.skipWhile fun a => !isBreak a).mark.index⟩] := by
  have hreaches := reaches_skipWhile (fun a => !isBreak a) c
  refine ⟨hreaches, ?_, ?_, ?_⟩
  · exact inOrder_cons.2 ⟨Nat.le_refl _, hreaches.index_le, inOrder_nil.2 (Nat.le_refl _)⟩
  · intro a ha
    rcases List.mem_singleton.1 ha with rfl
    exact stands_skipLine place c hsign
  · intro offset hlo hhi _
    by_cases hplace : place = .inHeader
    · exact Or.inl (hheader hplace offset hlo hhi)
    · exact Or.inr ⟨_, List.mem_singleton_self _, hplace, hlo, hhi⟩

theorem passes_comment (P : Nat → Prop) {place : Place} (c : Cursor)
    (hheader : place = .inHeader → ∀ offset, c.mark.index ≤ offset →
      offset < c.skipComment.mark.index → P offset) :
    c.Passes P c.skipComment (c.comment place) := by
  unfold comment
  unfold skipComment at hheader ⊢
  by_cases hpeek : (c.peek == '#') = true
  · rw [if_pos hpeek] at hheader ⊢
    rw [if_pos hpeek]
    exact passes_skipLine P c (fun _ => beq_iff_eq.1 hpeek) hheader
  · rw [if_neg hpeek, if_neg hpeek]
    exact Passes.blank (BlankTo.refl c)

/-- What follows on the line of a directive or a header. -/
theorem passes_finishLine (P : Nat → Prop) {reader : LexPlace} {place : Place} {c c' : Cursor}
    (h : finishLine reader c = .ok c')
    (hheader : place = .inHeader → ∀ offset, c.mark.index ≤ offset → offset < c'.mark.index →
      P offset) : c.Passes P c' (c.skipSpaces.comment place) := by
  unfold finishLine at h
  dsimp only at h
  split at h
  · cases h
    have hspaces := blankTo_skipSpaces c
    have hbreak := blankTo_lineBreak c.skipSpaces.skipComment
    have hcomment :
        c.skipSpaces.Passes P c.skipSpaces.skipComment (c.skipSpaces.comment place) := by
      refine passes_comment P _ ?_
      intro hplace offset hlo hhi
      exact hheader hplace offset (Nat.le_trans hspaces.reaches.index_le hlo)
        (Nat.lt_of_lt_of_le hhi hbreak.reaches.index_le)
    have hline := ((Passes.blank hspaces).trans hcomment).trans (Passes.blank hbreak)
    rw [List.nil_append, List.append_nil] at hline
    exact hline
  · cases h

end Cursor

open Cursor

/-! ## Between two tokens -/

def gapAsides (inComment : Bool) : List Char → Mark → List Aside
  | [], _ => []
  | c :: rest, m =>
    let next := m.after c (rest.headD endChar)
    if isBreak c then gapAsides false rest next
    else if inComment then gapAsides true rest next
    else if c == ' ' then gapAsides false rest next
    else if c == '#' then (⟨c :: rest, m⟩ : Cursor).comment .between ++ gapAsides true rest next
    else []

/-- A gap goes on from the cursor or, in a comment, from the end of its line. -/
theorem passes_gapFrom (P : Nat → Prop) (inComment : Bool) (cs : List Char) (m : Mark)
    (broke : Bool) :
    (if inComment then (⟨cs, m⟩ : Cursor).skipWhile fun a => !isBreak a else ⟨cs, m⟩).Passes P
      (Lexer.gapFrom inComment cs m broke).1 (gapAsides inComment cs m) := by
  -- On the characters, one case for each kind of them.
  induction cs generalizing inComment m broke with
  | nil => cases inComment <;> exact Passes.blank (BlankTo.refl _)
  | cons a rest ih =>
    have hskip : (⟨a :: rest, m⟩ : Cursor).skip = ⟨rest, m.after a (rest.headD endChar)⟩ := rfl
    rw [Lexer.gapFrom, gapAsides]
    by_cases hbreak : isBreak a = true
    · have hblank : (⟨a :: rest, m⟩ : Cursor).BlankTo ⟨rest, m.after a (rest.headD endChar)⟩ :=
        BlankTo.skip (Or.inr hbreak)
      have hstart : (if inComment then (⟨a :: rest, m⟩ : Cursor).skipWhile fun a => !isBreak a
          else ⟨a :: rest, m⟩) = ⟨a :: rest, m⟩ := by
        cases inComment with
        | false => rfl
        | true => simp [skipWhile, skipWhileFrom, hbreak]
      rw [if_pos hbreak, if_pos hbreak, hstart]
      exact (Passes.blank hblank).trans (ih false _ true)
    · rw [if_neg hbreak, if_neg hbreak]
      have hline : (⟨a :: rest, m⟩ : Cursor).skipWhile (fun a => !isBreak a) =
          (⟨rest, m.after a (rest.headD endChar)⟩ : Cursor).skipWhile fun a => !isBreak a := by
        simp [skipWhile, skipWhileFrom, hbreak]
      cases inComment with
      | true =>
        rw [if_pos rfl, if_pos rfl, if_pos rfl, hline]
        exact ih true _ broke
      | false =>
        rw [if_neg Bool.false_ne_true, if_neg Bool.false_ne_true, if_neg Bool.false_ne_true]
        by_cases hspace : (a == ' ') = true
        · have hblank : (⟨a :: rest, m⟩ : Cursor).BlankTo ⟨rest, m.after a (rest.headD endChar)⟩ :=
            BlankTo.skip (Or.inl (beq_iff_eq.1 hspace))
          rw [if_pos hspace, if_pos hspace]
          exact (Passes.blank hblank).trans (ih false _ broke)
        · rw [if_neg hspace, if_neg hspace]
          by_cases hsign : (a == '#') = true
          · rw [if_pos hsign, if_pos hsign]
            have hcomment : (⟨a :: rest, m⟩ : Cursor).skipComment =
                (⟨rest, m.after a (rest.headD endChar)⟩ : Cursor).skipWhile
                  fun a => !isBreak a := by
              rw [← hline]
              exact if_pos hsign
            have hpassed : (⟨a :: rest, m⟩ : Cursor).Passes P _
                ((⟨a :: rest, m⟩ : Cursor).comment .between) :=
              passes_comment P _ Place.noConfusion
            rw [hcomment] at hpassed
            exact hpassed.trans (ih true _ broke)
          · rw [if_neg hsign, if_neg hsign]
            exact Passes.blank (BlankTo.refl _)

theorem place_of_mem_gapAsides {inComment : Bool} {cs : List Char} {m : Mark} {a : Aside}
    (ha : a ∈ gapAsides inComment cs m) : a.place = .between := by
  induction cs generalizing inComment m with
  | nil => cases ha
  | cons c rest ih =>
    rw [gapAsides] at ha
    split at ha
    · exact ih ha
    · split at ha
      · exact ih ha
      · split at ha
        · exact ih ha
        · split at ha
          · rcases List.mem_append.1 ha with ha | ha
            · rcases mem_comment.1 ha with ⟨-, rfl⟩
              rfl
            · exact ih ha
          · cases ha

/-! ## With a token -/

def parameterAsides (d : Directive) (after : Cursor) : List Aside :=
  match d with
  | .other _ => [⟨.parameters, after.mark.index, (directiveRest d after).mark.index⟩]
  | _ => []

def directiveAsides (c : Cursor) : List Aside :=
  match directiveBody c with
  | .ok (d, after) =>
    parameterAsides d after ++ (directiveRest d after).skipSpaces.comment .afterDirective
  | .error _ => []

def headerAsides (c : Cursor) : List Aside :=
  match readHeader c.skip with
  | .ok (_, _, header) => header.skipSpaces.comment .inHeader
  | .error _ => []

/-- A token that is read from the cursor `c` on, with the asides that are passed over before reading
goes on at `c'`. They lie behind the token, or in the header of a block scalar, where a space stands
before the comment. -/
structure Spells (c : Cursor) (t : Token) (c' : Cursor) (asides : List Aside) : Prop where
  start : t.start = c.mark
  moved : c.mark.index < c'.mark.index
  stop : c.Passed c' t.stop
  /-- A document end is three dots and stops behind them. -/
  ended : t.kind = .documentEnd → c.atSeparator '.' = true ∧ t.stop = (c.advance 3).mark
  passes : c.Passes (fun offset => t.kind.isText = true ∧ t.Holds offset) c' asides
  behind : ∀ a ∈ asides, a.place ≠ .inHeader → c.mark.index < a.start ∧ t.stop.index ≤ a.start
  header : ∀ a ∈ asides, a.place = .inHeader → t.kind.isText = true ∧ t.Holds a.start ∧
    ∃ offset, c.mark.index ≤ offset ∧ a.start = offset + 1 ∧ c.charAt? offset = some ' '

variable {c c' : Cursor} {t : Token}

theorem TokenKind.ne_documentEnd_of_isText {k : TokenKind} (h : k.isText = true) :
    k ≠ .documentEnd := by
  rintro rfl
  cases h

/-- Where a character is left, skipping it takes the index further. -/
theorem Cursor.Reaches.index_lt (h : c.skip.Reaches c') (hrest : c.rest ≠ []) :
    c.mark.index < c'.mark.index := by
  have hshorter := h.shorter hrest
  have hend := ((reaches_skip c).trans h).end_eq
  omega

/-- From the start of a token to its end, every `#` is its own. -/
theorem passes_token {d : Cursor} (h : c.Reaches d) (hstart : t.start = c.mark)
    (hstop : t.stop = d.mark) (htext : t.kind.isText = true) :
    c.Passes (fun offset => t.kind.isText = true ∧ t.Holds offset) d [] := by
  refine Passes.bare h ?_
  intro offset hlo hhi _
  rw [Token.Holds, hstart, hstop]
  exact ⟨htext, hlo, hhi⟩

theorem ReadsText.spells (h : ReadsText c t c') (hrest : c.rest ≠ []) : Spells c t c' [] := by
  refine ⟨h.start, h.moved.index_lt hrest, h.stop,
    fun hkind => absurd hkind (TokenKind.ne_documentEnd_of_isText h.text), ?_, ?_, ?_⟩
  · rcases h.last with ⟨d, hd, hblank, hmark⟩
    exact (passes_token hd h.start hmark.symm h.text).trans (Passes.blank hblank)
  · intro a ha
    cases ha
  · intro a ha
    cases ha

theorem spells_indicator {kind : TokenKind} {n : Nat} (hrest : c.rest ≠ [])
    (hsign : '#' ∉ c.rest.take (n + 1))
    (hended : kind = .documentEnd → c.atSeparator '.' = true ∧ n = 2) :
    Spells c ⟨kind, c.mark, (c.advance (n + 1)).mark⟩ (c.advance (n + 1)) [] := by
  have hmoved : c.skip.Reaches (c.advance (n + 1)) := reaches_advance n c.skip
  refine ⟨rfl, hmoved.index_lt hrest, Passed.here (reaches_advance _ c), ?_, ?_, ?_, ?_⟩
  · intro hkind
    rcases hended hkind with ⟨hdots, rfl⟩
    exact ⟨hdots, rfl⟩
  · refine Passes.bare (reaches_advance (n + 1) c) ?_
    intro offset hlo hhi hchar
    have hend := (reaches_advance (n + 1) c).end_eq
    rw [rest_advance, List.length_drop] at hend
    rw [charAt?, if_pos hlo] at hchar
    refine absurd (List.mem_of_getElem? (i := offset - c.mark.index) ?_) hsign
    rw [List.getElem?_take_of_lt (by omega)]
    exact hchar
  · intro a ha
    cases ha
  · intro a ha
    cases ha

theorem spells_readDirective (h : readDirective c = .ok (t, c')) (hrest : c.rest ≠ []) :
    Spells c t c' (directiveAsides c) := by
  have hreads := (runs_readDirective _ List.suffix_rfl).post _ h
  rcases exists_body_of_readDirective h with ⟨d, after, hbody, hend, rfl⟩
  have hafter := (runs_directiveBody _ List.suffix_rfl).post _ hbody
  have hmoved : c.mark.index < after.mark.index := hafter.index_lt hrest
  -- Behind the token come the parameters, then the rest of the line.
  let P : Nat → Prop := fun offset =>
    (TokenKind.directive d).isText = true ∧
      (⟨.directive d, c.mark, after.mark⟩ : Token).Holds offset
  have hparameters : after.Passes P (directiveRest d after) (parameterAsides d after) := by
    cases d with
    | other name => exact passes_skipLine P after (fun h => absurd rfl h) Place.noConfusion
    | version major minor => exact Passes.blank (BlankTo.refl after)
    | tag handle replacement => exact Passes.blank (BlankTo.refl after)
  have hline : (directiveRest d after).Passes P c'
      ((directiveRest d after).skipSpaces.comment .afterDirective) :=
    passes_finishLine P hend Place.noConfusion
  have hbehind := hparameters.trans hline
  have htoken : c.Passes P after [] :=
    passes_token (t := ⟨.directive d, c.mark, after.mark⟩)
      ((reaches_skip c).trans hafter) rfl rfl rfl
  have hasides : directiveAsides c =
      parameterAsides d after ++ (directiveRest d after).skipSpaces.comment .afterDirective := by
    rw [directiveAsides, hbody]
  rw [hasides]
  refine ⟨rfl, hreads.moved.index_lt hrest, hreads.stop, TokenKind.noConfusion,
    htoken.trans hbehind, ?_, ?_⟩
  · intro a ha _
    have hstart : after.mark.index ≤ a.start := (hbehind.order.inside a ha).1
    exact ⟨Nat.lt_of_lt_of_le hmoved hstart, hstart⟩
  · intro a ha hheader
    exfalso
    rcases List.mem_append.1 ha with ha | ha
    · cases d with
      | other name =>
        rcases List.mem_singleton.1 ha with rfl
        cases hheader
      | version major minor => cases ha
      | tag handle replacement => cases ha
    · rcases mem_comment.1 ha with ⟨-, rfl⟩
      cases hheader

/-- A comment after a word has a space before it. -/
theorem exists_space_of_endsWord (hword : endsWord c.peek = true)
    (hsign : c.skipSpaces.peek = '#') :
    ∃ offset, c.mark.index ≤ offset ∧ c.skipSpaces.mark.index = offset + 1 ∧
      c.charAt? offset = some ' ' := by
  have hreaches := reaches_skipSpaces c
  -- Without a space the sign would stand where the word ends.
  have hlt : c.mark.index < c.skipSpaces.mark.index := by
    refine Nat.lt_of_le_of_ne hreaches.index_le ?_
    intro heq
    have hsame : c.skipSpaces.charAt? c.skipSpaces.mark.index = c.charAt? c.mark.index := by
      rw [hreaches.charAt?_eq (Nat.le_refl _), ← heq]
    rw [charAt?_mark, charAt?_mark, rest_eq_of_peek hsign (by decide)] at hsame
    have hpeek : c.peek = '#' := by
      rw [peek, List.headD_eq_head?_getD, ← hsame]
      rfl
    rw [hpeek] at hword
    exact absurd hword (by decide)
  have hpred : c.skipSpaces.mark.index - 1 < (c.skipWhile (· == ' ')).mark.index :=
    Nat.sub_lt (by omega) Nat.one_pos
  rcases inside_skipWhile (· == ' ') c (by omega) hpred with ⟨a, ha, hspace⟩
  rw [beq_iff_eq.1 hspace] at ha
  exact ⟨_, by omega, by omega, ha⟩

theorem spells_readBlock {folded : Bool} {parent : Int}
    (h : readBlock folded parent c = .ok (t, c')) (hrest : c.rest ≠ []) :
    Spells c t c' (headerAsides c) := by
  have hreads := (runs_readBlock [] _ _ _).post _ h
  rcases exists_header_of_readBlock h with
    ⟨chomping, increment, header, body, hheader, hbody, hlast, hstart, htext⟩
  have hword := (runs_readHeader [] _).post _ hheader
  have hmoved : c.Reaches header := (reaches_skip c).trans hword.1
  have hline := (runs_finishLine [] _ _).post _ hbody
  have hstop : body.mark.index ≤ t.stop.index := hlast.passed.le_index
  have hasides : headerAsides c = header.skipSpaces.comment .inHeader := by
    rw [headerAsides, hheader]
  let P : Nat → Prop := fun offset => t.kind.isText = true ∧ t.Holds offset
  have hholds : ∀ offset, c.mark.index ≤ offset → offset < body.mark.index → P offset := by
    intro offset hlo hhi
    refine ⟨htext, ?_, Nat.lt_of_lt_of_le hhi hstop⟩
    rw [hstart]
    exact hlo
  -- The header with its comment is part of the token, and so is all that follows it.
  have hfirst : c.Passes P header [] := by
    refine Passes.bare hmoved ?_
    intro offset hlo hhi _
    exact hholds offset hlo (Nat.lt_of_lt_of_le hhi hline.index_le)
  have hcomment : header.Passes P body (header.skipSpaces.comment .inHeader) := by
    refine passes_finishLine P hbody ?_
    intro _ offset hlo hhi
    exact hholds offset (Nat.le_trans hmoved.index_le hlo) hhi
  have htextual : body.Passes P c' [] := by
    rcases hlast with ⟨d, hd, hblank, hmark⟩
    refine Passes.trans (Passes.bare hd ?_) (Passes.blank hblank)
    intro offset hlo hhi _
    have hle := (hmoved.trans hline).index_le
    refine ⟨htext, ?_, ?_⟩
    · rw [hstart]
      exact Nat.le_trans hle hlo
    · rw [← hmark]
      exact hhi
  have hpasses := (hfirst.trans hcomment).trans htextual
  rw [List.nil_append, List.append_nil] at hpasses
  rw [hasides]
  refine ⟨hstart, hreads.moved.index_lt hrest, hreads.stop,
    fun hkind => absurd hkind (TokenKind.ne_documentEnd_of_isText htext), hpasses, ?_, ?_⟩
  · intro a ha hplace
    rcases mem_comment.1 ha with ⟨-, rfl⟩
    exact absurd rfl hplace
  · intro a ha _
    rcases mem_comment.1 ha with ⟨hsign, rfl⟩
    rcases exists_space_of_endsWord hword.2 hsign with
      ⟨offset, hlo, hindex, hspace⟩
    have hinside := hcomment.order.inside _ ha
    have hlt := ((hcomment.stands _ ha).sign rfl).2
    refine ⟨htext, (hholds _ (Nat.le_trans hmoved.index_le hinside.1)
      (Nat.lt_of_lt_of_le hlt hinside.2.2)).2, offset, Nat.le_trans hmoved.index_le hlo, hindex, ?_⟩
    rw [← hmoved.charAt?_eq hlo]
    exact hspace

end Yaml
end YamlServer
