import YamlServer.Diagnostic
import YamlServer.Proofs.Document.Caching
import YamlServer.Proofs.Document.Comments
import YamlServer.Proofs.Document.Succession
import YamlServer.Proofs.Text.Lines

/-!
# The ranges of diagnostics

Faults and undeclared tags are shown from the place they are about to the end of its line. The start
is a column of the whole line, the end the length of its content, which the carriage returns at the
end of the line are not part of. So the two disagree for a place among these carriage returns: a
quoted scalar that is still open at a carriage return with which the text ends has its fault behind
it. All other ranges are well formed.

* `DocumentSet.range_openQuoteText`: one that has none.
-/

namespace YamlServer

open Text Yaml

/-! ## Ranges -/

namespace Position

/-- A position on a line that exists. -/
def IsOn (b : Lines) (p : Position) : Prop :=
  0 ≤ p.line ∧ p.line < Int.ofNat b.count

instance (b : Lines) (p : Position) : Decidable (p.IsOn b) :=
  inferInstanceAs (Decidable (_ ∧ _))

instance : LE Position :=
  ⟨fun p q => p.line < q.line ∨ p.line = q.line ∧ p.character ≤ q.character⟩

instance (p q : Position) : Decidable (p ≤ q) :=
  inferInstanceAs (Decidable (_ ∨ _ ∧ _))

theorem le_iff_of_same_line (line : Int) (first last : Nat) :
    (⟨line, first⟩ : Position) ≤ ⟨line, last⟩ ↔ first ≤ last := by
  constructor
  · rintro (hlt | ⟨-, hle⟩)
    · exact absurd hlt (Int.lt_irrefl line)
    · exact hle
  · exact fun hle => Or.inr ⟨rfl, hle⟩

end Position

/-- A range within the lines of a text that does not run backwards. -/
structure Range.WellFormed (b : Lines) (r : Range) : Prop where
  start : r.start.IsOn b
  stop : r.stop.IsOn b
  forward : r.start ≤ r.stop

/-! ## Carriage returns -/

namespace Text

/-- An offset behind a carriage return, with nothing but carriage returns up to the end of the
line. -/
def BehindReturn (cs : List Char) (offset : Nat) : Prop :=
  (lineBefore cs offset).getLast? = some '\r' ∧ ∀ c ∈ lineAfter cs offset, c = '\r'

instance (cs : List Char) (offset : Nat) : Decidable (BehindReturn cs offset) :=
  inferInstanceAs (Decidable (_ ∧ _))

/-- Without the carriage returns at its end, a line still has its first part unless that part ends
in one of them. -/
theorem length_le_rdropWhile_iff (xs ys : List Char) :
    xs.length ≤ ((xs ++ ys).rdropWhile (· == '\r')).length ↔
      ¬ (xs.getLast? = some '\r' ∧ ∀ c ∈ ys, c = '\r') := by
  -- From the end of the line on: each carriage return of the second part is dropped.
  induction ys using List.reverseRecOn with
  | nil =>
    have hself : xs.length ≤ (xs.rdropWhile (· == '\r')).length ↔
        xs.rdropWhile (· == '\r') = xs := by
      constructor
      · intro hle
        have hdropped := List.rdropWhile_prefix (· == '\r') (l := xs)
        exact hdropped.eq_of_length (Nat.le_antisymm hdropped.length_le hle)
      · intro heq
        rw [heq]
    rw [List.append_nil, hself, List.rdropWhile_eq_self_iff]
    rcases List.eq_nil_or_concat xs with rfl | ⟨init, last, rfl⟩
    · simp
    · simp
  | append_singleton ys c ih =>
    rw [← List.append_assoc]
    by_cases hc : c = '\r'
    · rw [List.rdropWhile_concat_pos (· == '\r') _ c (beq_iff_eq.2 hc), ih]
      simp [hc]
    · rw [List.rdropWhile_concat_neg (· == '\r') _ c (by simpa using hc)]
      refine iff_of_true (by simp) ?_
      rintro ⟨-, hall⟩
      exact hc (hall c (by simp))

theorem column_le_content_iff (cs : List Char) (offset : Int) :
    ((Lines.ofChars cs).position offset).2 ≤
        ((Lines.ofChars cs).content (Int.ofNat ((Lines.ofChars cs).position offset).1)).length ↔
      ¬ BehindReturn cs offset.toNat := by
  rw [Lines.column_eq, Lines.content_eq, lineAround, length_le_rdropWhile_iff, BehindReturn]

/-- Without carriage returns there is nothing to stand behind. -/
theorem not_behindReturn {cs : List Char} (h : '\r' ∉ cs) (offset : Nat) :
    ¬ BehindReturn cs offset := by
  rintro ⟨hlast, -⟩
  -- The line before the offset is a part of the text.
  have hbefore : '\r' ∈ cs.take offset :=
    (List.rtakeWhile_suffix _ _).subset (List.mem_of_getLast? hlast)
  exact h (List.mem_of_mem_take hbefore)

end Text

namespace Range

theorem positionAt_isOn (cs : List Char) (offset : Int) :
    (positionAt (Lines.ofChars cs) offset).IsOn (Lines.ofChars cs) :=
  ⟨Int.natCast_nonneg _, Int.ofNat_lt.2 (Lines.lineAt_lt_count (Lines.clamp_le cs offset))⟩

theorem positionAt_mono (b : Lines) {o o' : Int} (h : o ≤ o') :
    positionAt b o ≤ positionAt b o' := by
  have hclamp := b.clamp_mono h
  rcases Nat.lt_or_eq_of_le (b.lineAt_mono hclamp) with hlt | heq
  · exact Or.inl (Int.ofNat_lt.2 hlt)
  · refine Or.inr ⟨congrArg Int.ofNat heq, ?_⟩
    -- Columns on one line are counted from the same start.
    show b.clamp o - b.start (b.lineAt (b.clamp o)) ≤ b.clamp o' - b.start (b.lineAt (b.clamp o'))
    rw [heq]
    exact Nat.sub_le_sub_right hclamp _

/-- A range to the end of its line is well formed unless it starts behind the carriage returns at
the end of the line, or among them. -/
theorem wellFormed_ofOffsets_iff (cs : List Char) (start stop : Int) :
    (ofOffsets (Lines.ofChars cs) start stop true).WellFormed (Lines.ofChars cs) ↔
      ¬ BehindReturn cs start.toNat := by
  rw [← column_le_content_iff]
  constructor
  · exact fun h => (Position.le_iff_of_same_line _ _ _).1 h.forward
  · intro h
    have hline := positionAt_isOn cs start
    exact ⟨hline, hline, (Position.le_iff_of_same_line _ _ _).2 h⟩

end Range

/-! ## Where findings are -/

namespace Yaml

theorem Event.offset_of_note {e : Event} {known : List String} {f : Fault}
    (h : e.note known = .error f) : f.offset = e.start.index := by
  have hproperties : ∀ p : Properties, p.note e.start.index known = .error f →
      f.offset = e.start.index := by
    intro p hp
    unfold Properties.note at hp
    split at hp
    · cases hp
    · split at hp
      · cases hp
        rfl
      · cases hp
  unfold Event.note at h
  split at h
  · cases h
  · split at h
    · cases h
    · cases h
      rfl
  · exact hproperties _ h
  · exact hproperties _ h
  · exact hproperties _ h
  · cases h

/-- The fault of an anchor or an alias stands among the events. -/
theorem offset_le_of_anchorFault? {lo hi : Nat} {known : List String} {events : List Event}
    {f : Fault} (horder : InOrder Event.extent lo hi events)
    (h : anchorFault? known events = some f) : f.offset ≤ hi := by
  induction events generalizing lo known with
  | nil => cases h
  | cons e rest ih =>
    rcases inOrder_cons.1 horder with ⟨-, hwidth, hrest⟩
    cases hnote : e.note known with
    | error f' =>
      rw [anchorFault?_error hnote] at h
      cases h
      rw [Event.offset_of_note hnote]
      exact Nat.le_trans hwidth hrest.le
    | ok known' =>
      rw [anchorFault?_ok hnote] at h
      exact ih hrest h

/-- The nodes below a nested node start before it stops. -/
theorem Node.Nested.start_le {n : Node} (h : n.Nested) : ∀ m ∈ n.walk, m.extent.1 ≤ n.extent.2 := by
  -- On the nesting: what is below an item stops with it, and the item before the collection does.
  induction h with
  | scalar id span tag content style hspan =>
    intro m hm
    rw [List.mem_singleton.1 hm]
    exact hspan
  | «alias» id span anchor target hspan =>
    intro m hm
    rw [List.mem_singleton.1 hm]
    exact hspan
  | sequence id span tag items horder _ ih =>
    intro m hm
    rw [walk, walkItems_eq] at hm
    rcases List.mem_cons.1 hm with rfl | hm
    · exact horder.le
    · rcases List.mem_flatMap.1 hm with ⟨n, hn, hm⟩
      exact Nat.le_trans (ih n hn m hm) (horder.inside n hn).2.2
  | mapping id span tag entries horder _ ih =>
    intro m hm
    rw [walk, walkEntries_eq] at hm
    rcases List.mem_cons.1 hm with rfl | hm
    · exact horder.le
    · rcases List.mem_flatMap.1 hm with ⟨e, he, hm⟩
      -- A key and a value are treated alike, as sides of the mapping.
      have hside : ∀ n ∈ [e.1, e.2], m ∈ n.walk → m.extent.1 ≤ span.stop.index := by
        intro n hn hm
        have hn' : n ∈ sides entries := List.mem_flatMap.2 ⟨e, he, hn⟩
        exact Nat.le_trans (ih n hn' m hm) (horder.inside n hn').2.2
      rcases List.mem_append.1 hm with hm | hm
      · exact hside e.1 (by simp) hm
      · exact hside e.2 (by simp) hm

end Yaml

theorem mem_of_mem_undeclared {kinds : List (String × List String)} {nodes : List Node} {n : Node}
    {tag : String} (h : (n, tag) ∈ undeclared kinds nodes) : n ∈ nodes := by
  rcases List.mem_filterMap.1 h with ⟨m, hm, hshown⟩
  split at hshown
  · split at hshown
    · cases hshown
      exact hm
    · cases hshown
  · cases hshown

/-- What a document shows of a composed one that lies in a text of `size` characters: findings that
start in the text and reach to the end of the line. -/
theorem Document.Shows.findings {d : Document} {c : Composed} {comments : List Comment} {size : Nat}
    (h : d.Shows c comments) (hplaced : c.Placed size)
    (hfault : ∀ fault, c.fault = some fault → fault.offset ≤ size) :
    ∀ f ∈ d.errors ++ d.warnings, f.start ≤ size ∧ f.toLineEnd = true := by
  intro f hf
  rcases List.mem_append.1 hf with herror | hwarning
  · rw [errors, h.source, Option.bind_some] at herror
    cases hc : c.fault with
    | none =>
      rw [hc] at herror
      cases herror
    | some fault =>
      rw [hc] at herror
      rw [List.mem_singleton.1 herror]
      exact ⟨hfault fault hc, rfl⟩
  · rw [warnings, h.source, Option.bind_some] at hwarning
    cases hc : c.root with
    | none =>
      rw [hc] at hwarning
      cases hwarning
    | some root =>
      rw [hc] at hwarning
      rcases List.mem_map.1 hwarning with ⟨⟨n, tag⟩, hn, rfl⟩
      rcases hplaced root hc with ⟨hnested, -, hstop⟩
      have hwalk : n ∈ root.walk := mem_of_mem_undeclared hn
      exact ⟨Nat.le_trans (hnested.start_le n hwalk) hstop, rfl⟩

namespace DocumentSet

/-- The faults of a text are about places in it. -/
theorem offset_le_of_rejection? {source : String} {f : Fault} (h : rejection? source = some f) :
    f.offset ≤ source.toList.length := by
  rcases Option.or_eq_some_iff.1 h with hanchor | ⟨-, hhalt⟩
  · exact offset_le_of_anchorFault?
      (EventStream.inOrder_ofTokens (TokenStream.inOrder_ofChars source.toList)) hanchor
  · exact (EventStream.inOrder_of_fault_ofChars (Composed.haltFault?_eq_some.1 hhalt)).1

theorem findings_of_parse {source : String} {customTags : List String} {set : DocumentSet}
    (h : parse source customTags = .ok set) {document : Document}
    (hdocument : document ∈ set.documents) :
    ∀ f ∈ document.errors ++ document.warnings,
      f.start ≤ source.toList.length ∧ f.toLineEnd = true := by
  rcases exists_share h hdocument with ⟨⟨c, comments⟩, hshare, hresolved, hof⟩
  have hc : c ∈ composedOf source := (List.of_mem_zip hshare).1
  refine (Document.shows_ofComposed hresolved hof).findings (placed_ofChars source.toList c hc) ?_
  -- A document has no other fault than the first one of the text.
  intro fault hfault
  refine offset_le_of_rejection? (Option.mem_toList.1 ?_)
  rw [← faults_composedOf]
  exact List.mem_filterMap.2 ⟨c, hc, hfault⟩

/-! ## Diagnostics -/

/-- Every diagnostic of a text shows a finding of one of its documents, from its place in the text
to the end of the same line. Both positions are on a line that exists. The range is well formed
unless the place is behind a carriage return that ends the line, so that all ranges are well formed
in a text without carriage returns. -/
theorem wellFormed_diagnostics_iff {source : String} {customTags : List String} {set : DocumentSet}
    (h : parse source customTags = .ok set) {d : Diagnostic} (hd : d ∈ set.diagnostics) :
    d.range.start.IsOn (Lines.ofText source) ∧ d.range.stop.IsOn (Lines.ofText source) ∧
      d.range.stop.line = d.range.start.line ∧
      (∃ document ∈ set.documents, ∃ f ∈ document.errors ++ document.warnings,
        d = f.diagnostic (Lines.ofText source) ∧ f.start ≤ source.toList.length ∧
        (d.range.WellFormed (Lines.ofText source) ↔ ¬ BehindReturn source.toList f.start)) ∧
      ('\r' ∉ source.toList → d.range.WellFormed (Lines.ofText source)) := by
  rcases List.mem_flatMap.1 hd with ⟨document, hdocument, hshown⟩
  rcases List.mem_map.1 hshown with ⟨f, hf, rfl⟩
  rcases findings_of_parse h hdocument f hf with ⟨hinside, htoLineEnd⟩
  have hline := Range.positionAt_isOn source.toList f.start
  have hiff := Range.wellFormed_ofOffsets_iff source.toList f.start f.stop
  have hrange : (f.diagnostic (Lines.ofText set.source)).range =
      Range.ofOffsets (Lines.ofText source) f.start f.stop true := by
    rw [source_of_parse h, ← htoLineEnd]
    rfl
  rw [hrange]
  refine ⟨hline, hline, rfl, ⟨document, hdocument, f, hf, ?_, hinside, hiff⟩, ?_⟩
  · rw [source_of_parse h]
  · exact fun hnone => hiff.2 (not_behindReturn hnone _)

/-- A tag that is not declared, on a line that ends in a carriage return and a line feed, and a list
that is not closed before the carriage return at the end of the text. -/
def returnedText : String :=
  "!x a\r\n--- [b\r"

theorem wellFormed_diagnostics_iff_returnedText :
    ∃ set, parse returnedText [] = .ok set ∧
      set.diagnostics.map (·.range) = [⟨⟨0, 0⟩, ⟨0, 4⟩⟩, ⟨⟨1, 7⟩, ⟨1, 6⟩⟩] ∧
      ∃ d ∈ set.diagnostics, d.range.stop.IsOn (Lines.ofText returnedText) ∧
        ∃ document ∈ set.documents, ∃ f ∈ document.errors ++ document.warnings,
          (d.range.WellFormed (Lines.ofText returnedText) ↔
            ¬ BehindReturn returnedText.toList f.start) := by
  have hread : ((parse returnedText []).toOption.map fun set => set.diagnostics.map (·.range)) =
      some [⟨⟨0, 0⟩, ⟨0, 4⟩⟩, ⟨⟨1, 7⟩, ⟨1, 6⟩⟩] := by
    decide +kernel
  rcases Option.map_eq_some_iff.1 hread with ⟨set, hset, hranges⟩
  have hparse := Outcome.toOption_eq_some.1 hset
  cases hshown : set.diagnostics with
  | nil =>
      rw [hshown] at hranges
      cases hranges
  | cons d rest =>
      have hd : d ∈ set.diagnostics := by
        rw [hshown]
        exact List.mem_cons_self
      rcases wellFormed_diagnostics_iff hparse hd with
        ⟨-, hstop, -, ⟨document, hdocument, f, hf, -, -, hiff⟩, -⟩
      exact ⟨set, hparse, hranges, d, hd, hstop, document, hdocument, f, hf, hiff⟩

/-- A quote that is not closed before the carriage return at the end of the text. -/
def openQuoteText : String :=
  "\"\r"

/-- Its fault stands behind the carriage return, the end of the line before it. -/
theorem range_openQuoteText :
    (parse openQuoteText []).toOption.map (fun set => set.diagnostics.map (·.range)) =
        some [⟨⟨0, 2⟩, ⟨0, 1⟩⟩] ∧
      ¬ (⟨⟨0, 2⟩, ⟨0, 1⟩⟩ : Range).WellFormed (Lines.ofText openQuoteText) := by
  refine ⟨by decide +kernel, fun h => ?_⟩
  exact absurd h.forward (by decide)

end DocumentSet
end YamlServer
