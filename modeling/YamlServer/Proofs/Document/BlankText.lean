import YamlServer.Proofs.Document.Caching
import YamlServer.Proofs.Document.Conversion
import YamlServer.Proofs.Yaml.BlankFlow

/-!
# Blank text that stands for a map

A request may ask that blank text is put between braces, so that it is read as an empty map. That is
what happens as long as the text holds spaces and line breaks only. A tab between the braces is an
error, and any other blank is read as the key of a pair.

* `Cache.get_of_blank`: the answer to a request for blank text.
-/

namespace YamlServer

open Yaml Outcome

namespace Yaml

/-! ## The type of wide text -/

namespace Tag

variable {a : Char} {more : List Char}

theorem dropFinalFeed_wide (h : 0xa0 ≤ a.toNat) (more : List Char) :
    ∃ kept, dropFinalFeed (a :: more) = a :: kept := by
  unfold dropFinalFeed
  split
  · -- A line feed at the end is another character than the first one.
    rename_i hlast
    cases more with
    | nil =>
      rw [List.getLast?_singleton, beq_iff_eq, Option.some.injEq] at hlast
      exact absurd hlast (ne_of_wide h (by decide))
    | cons b more => exact ⟨_, rfl⟩
  · exact ⟨more, rfl⟩

/-- A word that starts outside of ASCII is in no table of ASCII words. -/
theorem contains_eq_false (h : 0xa0 ≤ a.toNat) {words : List String}
    (hascii : (words.all fun w => w.toList.all (·.toNat < 0xa0)) = true) :
    words.contains (String.ofList (a :: more)) = false := by
  rw [List.contains_eq_mem, decide_eq_false_iff_not]
  intro hmem
  have hword := List.all_eq_true.1 hascii _ hmem
  rw [String.toList_ofList, List.all_cons, Bool.and_eq_true, decide_eq_true_eq] at hword
  omega

theorem isAsciiDigit_wide (h : 0xa0 ≤ a.toNat) : Text.isAsciiDigit a = false := by
  have hnine : ¬ a ≤ '9' := by
    intro hle
    have hle' : a.toNat ≤ '9'.toNat := hle
    exact absurd (Nat.le_trans h hle') (by decide)
  rw [Text.isAsciiDigit, decide_eq_false hnine, Bool.and_false]

theorem unsigned_wide (h : 0xa0 ≤ a.toNat) : unsigned (a :: more) = a :: more := by
  have hminus : a ≠ '-' := ne_of_wide h (by decide)
  have hplus : a ≠ '+' := ne_of_wide h (by decide)
  simp [unsigned, hminus, hplus]

theorem isFloat_wide (h : 0xa0 ≤ a.toNat) : isFloat (a :: more) = false := by
  have hdigits : afterDigits? (a :: more) = none := by
    rw [afterDigits?, isAsciiDigit_wide h, if_neg Bool.false_ne_true]
  have hpoint : ∀ rest, a :: more ≠ '.' :: rest := by
    rintro rest heq
    exact ne_of_wide h (by decide : '.'.toNat < 0xa0) (List.cons.inj heq).1
  rw [isFloat, unsigned_wide h, hdigits, contains_eq_false h (by decide),
    contains_eq_false h (by decide)]
  · rfl
  · exact hpoint

theorem isInt_wide (h : 0xa0 ≤ a.toNat) : isInt (a :: more) = false := by
  have hzero : a ≠ '0' := ne_of_wide h (by decide)
  simp [isInt, unsigned_wide h, hzero, isAsciiDigit_wide h]

theorem isTimestamp_wide (h : 0xa0 ≤ a.toNat) : isTimestamp (a :: more) = false := by
  have hdigits : digits? 4 (a :: more) = none := by
    rw [digits?, List.take_succ_cons, List.all_cons, isAsciiDigit_wide h, Bool.false_and,
      Bool.and_false, if_neg Bool.false_ne_true]
  rw [isTimestamp, timestamp?, hdigits]
  rfl

/-- Text that starts outside of ASCII is of no type but text. -/
theorem implicit_wide (h : 0xa0 ≤ a.toNat) (more : List Char) :
    implicit (String.ofList (a :: more)) = str := by
  rcases dropFinalFeed_wide h more with ⟨kept, hkept⟩
  have hne : ∀ w : String, ([w].all fun w => w.toList.all (·.toNat < 0xa0)) = true →
      (String.ofList (a :: kept) == w) = false := by
    intro w hw
    have hsingle := @contains_eq_false a kept h [w] hw
    rwa [List.contains_cons, List.contains_nil, Bool.or_false] at hsingle
  -- Every form that is tried needs a first character of its own, which is in ASCII.
  rw [implicit, String.toList_ofList, hkept, contains_eq_false h (by decide), isFloat_wide h,
    isInt_wide h, hne "<<" (by decide), contains_eq_false h (by decide), isTimestamp_wide h,
    hne "=" (by decide), contains_eq_false h (by decide)]
  rfl

@[simp]
theorem implicit_empty : implicit "" = null := by
  decide

end Tag

/-! ## Composed documents -/

theorem Token.exists_of_map_kind {tokens : List Token} {k : TokenKind} {ks : List TokenKind}
    (h : tokens.map Token.kind = k :: ks) :
    ∃ start stop rest, tokens = ⟨k, start, stop⟩ :: rest ∧ rest.map Token.kind = ks := by
  rcases List.map_eq_cons_iff.1 h with ⟨t, rest, rfl, hkind, hrest⟩
  cases hkind
  exact ⟨t.start, t.stop, rest, rfl, hrest⟩

namespace Composed

variable {s : TokenStream} (size : Nat)

/-- Braces with nothing between them are an empty map. -/
theorem ofEvents_narrow (hhalt : s.halt = none)
    (hkinds : s.tokens.map Token.kind =
      [.streamStart, .flowMappingStart, .flowMappingEnd, .streamEnd]) :
    ∃ span start stop, ofEvents size (EventStream.ofTokens s) =
      [⟨some (.mapping 0 span Tag.map []), start, stop, none⟩] := by
  rcases s with ⟨tokens, halt⟩
  dsimp only at hhalt hkinds
  subst hhalt
  rcases Token.exists_of_map_kind hkinds with ⟨_, _, _, rfl, h₁⟩
  rcases Token.exists_of_map_kind h₁ with ⟨_, _, _, rfl, h₂⟩
  rcases Token.exists_of_map_kind h₂ with ⟨_, _, _, rfl, h₃⟩
  rcases Token.exists_of_map_kind h₃ with ⟨_, _, _, rfl, h₄⟩
  rcases List.map_eq_nil_iff.1 h₄ with rfl
  exact ⟨_, _, _, rfl⟩

/-- A scalar between braces is the key of the only pair, whose value is empty. -/
theorem ofEvents_wide {content : String} (hhalt : s.halt = none)
    (hkinds : s.tokens.map Token.kind =
      [.streamStart, .flowMappingStart, .scalar content none, .flowMappingEnd, .streamEnd]) :
    ∃ span start stop key value, ofEvents size (EventStream.ofTokens s) =
      [⟨some (.mapping 0 span Tag.map [(.scalar 2 key (Tag.implicit content) content none,
        .scalar 3 value (Tag.implicit "") "" none)]), start, stop, none⟩] := by
  rcases s with ⟨tokens, halt⟩
  dsimp only at hhalt hkinds
  subst hhalt
  rcases Token.exists_of_map_kind hkinds with ⟨_, _, _, rfl, h₁⟩
  rcases Token.exists_of_map_kind h₁ with ⟨_, _, _, rfl, h₂⟩
  rcases Token.exists_of_map_kind h₂ with ⟨_, _, _, rfl, h₃⟩
  rcases Token.exists_of_map_kind h₃ with ⟨_, _, _, rfl, h₄⟩
  rcases Token.exists_of_map_kind h₄ with ⟨_, _, _, rfl, h₅⟩
  rcases List.map_eq_nil_iff.1 h₅ with rfl
  exact ⟨_, _, _, _, _, rfl⟩

/-- Tokens that stop inside of braces leave a document without a root, with what stopped them. -/
theorem ofEvents_tab {content : String} {f : Fault} (hhalt : s.halt = some (.fault f))
    (hkinds : s.tokens.map Token.kind <+: [.streamStart, .flowMappingStart, .scalar content none]) :
    ∃ start, ofEvents size (EventStream.ofTokens s) = [⟨none, start, size, some f⟩] := by
  rcases s with ⟨tokens, halt⟩
  dsimp only at hhalt hkinds
  subst hhalt
  -- By how many tokens were taken: the mark of the stream, the brace and the scalar.
  rcases tokens with - | ⟨s, - | ⟨⟨kind, _, _⟩, - | ⟨⟨kind', _, _⟩, rest⟩⟩⟩
  · exact ⟨_, rfl⟩
  · exact ⟨_, rfl⟩
  · rcases List.cons_prefix_cons.1 (List.cons_prefix_cons.1 hkinds).2 with ⟨hbrace, -⟩
    cases hbrace
    exact ⟨_, rfl⟩
  · rcases List.cons_prefix_cons.1 (List.cons_prefix_cons.1 hkinds).2 with ⟨hbrace, hrest⟩
    rcases List.cons_prefix_cons.1 hrest with ⟨hscalar, hnone⟩
    cases hbrace
    cases hscalar
    rcases List.map_eq_nil_iff.1 (List.prefix_nil.1 hnone) with rfl
    exact ⟨_, rfl⟩

end Composed
end Yaml

/-! ## Documents -/

namespace Tree

@[simp]
theorem scalarValue_str (content : String) : scalarValue Tag.str content = .ok (.str content) := by
  have hne : ∀ tag ∈ [Tag.null, Tag.bool, Tag.int, Tag.float], (Tag.str == tag) = false := by decide
  simp only [List.forall_mem_cons] at hne
  rw [scalarValue, Scalar.plain?, hne.1, hne.2.1, hne.2.2.1, hne.2.2.2.1]
  simp

@[simp]
theorem scalarValue_null (content : String) : scalarValue Tag.null content = .ok .null := by
  rw [scalarValue, Scalar.plain?, if_pos (beq_self_eq_true _)]

theorem ofNode_lone (a : Attached) (span key value : Span) (content : String) :
    ∃ info keyInfo valueInfo,
      ofNode a (.mapping 0 span Tag.map
        [(.scalar 2 key Tag.str content none, .scalar 3 value Tag.null "" none)]) =
      .ok (.map info [.pair (some (.scalar keyInfo (.str content) content none))
        (some (.scalar valueInfo .null "" none))]) := by
  simp only [ofNode, convert, convertEntries, scalarValue_str, scalarValue_null]
  exact ⟨_, _, _, rfl⟩

end Tree

theorem Document.ofComposed_of_root {customTags : List String} {c : Composed}
    {comments : List Comment} {n : Node} {t : Tree} (hroot : c.root = some n)
    (ht : Tree.ofNode (Attached.ofComments c.root comments) n = .ok t) :
    ofComposed customTags c comments =
      .ok ⟨some t, some ⟨c, Attached.ofComments c.root comments⟩, customTags⟩ := by
  rw [hroot] at ht ⊢
  rw [ofComposed, hroot]
  dsimp only
  rw [ht]
  rfl

namespace DocumentSet

/-- A text that is composed of one document is read as one, whatever its comments. -/
theorem parse_of_single {source : String} {customTags : List String} {c : Composed}
    {P : Document → Prop} (hhalt : (TokenStream.ofText source).halt.filter isFatal = none)
    (hcomposed : Composed.ofEvents source.toList.length (eventsOf source) = [c])
    (hc : ∀ comments, ∃ d, Document.ofComposed customTags c comments = .ok d ∧ P d) :
    ∃ set d, parse source customTags = .ok set ∧ set.documents = [d] ∧ P d := by
  rcases parse_cases source customTags with ⟨halt, hfatal, -⟩ | ⟨-, shares, hshares, hparse⟩
  · cases hhalt.symm.trans hfatal
  · -- One composed document has one share of the comments.
    rw [hcomposed] at hshares
    rcases List.map_eq_cons_iff.1 hshares with ⟨⟨c, comments⟩, rest, rfl, rfl, hrest⟩
    rcases List.map_eq_nil_iff.1 hrest with rfl
    rcases hc comments with ⟨d, hd, hP⟩
    rw [convert, hd] at hparse
    exact ⟨_, d, hparse, rfl, hP⟩

variable {source : String} {ws : List Char}

/-- Spaces and line breaks between braces are read as an empty map. -/
theorem parse_narrow (hsource : source.toList = '\x7b' :: ws ++ ['\x7d']) (h : ∀ a ∈ ws, Blank a)
    (hnarrow : ∀ a ∈ ws, isNarrow a = true) (customTags : List String) :
    ∃ set d, parse source customTags = .ok set ∧ set.documents = [d] ∧
      d.errors = [] ∧ ∃ info, d.root = some (.map info []) := by
  rcases TokenStream.ofChars_narrow h hnarrow with ⟨hhalt, hkinds⟩
  rw [← hsource] at hhalt hkinds
  rcases Composed.ofEvents_narrow source.toList.length hhalt hkinds with
    ⟨span, start, stop, hcomposed⟩
  refine parse_of_single ?_ hcomposed ?_
  · rw [TokenStream.ofText, hhalt]
    rfl
  · intro comments
    exact ⟨_, rfl, rfl, _, rfl⟩

/-- A tab between braces is an error, and leaves a document without a root. -/
theorem parse_tab (hsource : source.toList = '\x7b' :: ws ++ ['\x7d']) (h : ∀ a ∈ ws, Blank a)
    (htab : '\t' ∈ ws) (customTags : List String) :
    ∃ set d, parse source customTags = .ok set ∧ set.documents = [d] ∧ d.root = none ∧
      ∃ offset, d.errors = [Finding.ofFault ⟨.lex (.strayCharacter '\t'), offset⟩] := by
  rcases TokenStream.ofChars_tab h htab with ⟨content, offset, hhalt, hkinds⟩
  rw [← hsource] at hhalt hkinds
  rcases Composed.ofEvents_tab source.toList.length hhalt hkinds with ⟨start, hcomposed⟩
  refine parse_of_single ?_ hcomposed ?_
  · rw [TokenStream.ofText, hhalt]
    rfl
  · intro comments
    exact ⟨_, rfl, rfl, offset, rfl⟩

/-- Other blanks between braces are read as a map whose only key is their text. -/
theorem parse_wide (hsource : source.toList = '\x7b' :: ws ++ ['\x7d']) (h : ∀ a ∈ ws, Blank a)
    (htab : '\t' ∉ ws) {b : Char} (hb : b ∈ ws) (hnarrow : isNarrow b = false)
    (customTags : List String) :
    ∃ set d, parse source customTags = .ok set ∧ set.documents = [d] ∧ d.errors = [] ∧
      ∃ info key value raw, d.root = some (.map info
        [.pair (some (.scalar key (.str raw) raw none)) (some (.scalar value .null "" none))]) := by
  rcases TokenStream.ofChars_wide h htab hb hnarrow with ⟨a, more, hfar, hhalt, hkinds⟩
  rw [← hsource] at hhalt hkinds
  rcases Composed.ofEvents_wide source.toList.length hhalt hkinds with
    ⟨span, start, stop, key, value, hcomposed⟩
  rw [Tag.implicit_wide hfar, Tag.implicit_empty] at hcomposed
  refine parse_of_single ?_ hcomposed ?_
  · rw [TokenStream.ofText, hhalt]
    rfl
  · intro comments
    rcases Tree.ofNode_lone (Attached.ofComments _ comments) span key value
      (String.ofList (a :: more)) with ⟨info, keyInfo, valueInfo, htree⟩
    exact ⟨_, Document.ofComposed_of_root rfl htree, rfl, info, keyInfo, valueInfo, _, rfl⟩

end DocumentSet

namespace Cache

/-- Blank text is put between braces if that is asked for. -/
theorem toList_requestedText {r : CacheRequest} (hroot : r.addRoot = true)
    (hblank : Text.allBlank r.source.toList = true) :
    (requestedText r).toList = '\x7b' :: r.source.toList ++ ['\x7d'] := by
  rw [requestedText, hroot, hblank, Bool.and_self, if_pos rfl, String.toList_append,
    String.toList_append]
  rfl

/-- With nothing kept, a text that can be parsed is parsed. -/
theorem get_empty {r : CacheRequest} {set : DocumentSet}
    (h : DocumentSet.parse (requestedText r) r.customTags = .ok set) :
    (Cache.empty.get r).1 = .ok set := by
  rcases get_cases Cache.empty r with ⟨e, hfind, -⟩ | ⟨f, hparse, -⟩ | ⟨set', hparse, hget⟩
  · cases hfind
  · cases h.symm.trans hparse
  · cases h.symm.trans hparse
    rw [hget]

/-- Blank text that is put between braces is read as one document. It is an empty map without errors
if there are spaces and line breaks only, it has an error and no root if there is a tab, and
otherwise it is a map with one pair. -/
theorem get_of_blank {r : CacheRequest} (hroot : r.addRoot = true)
    (hblank : Text.allBlank r.source.toList = true)
    (hpermitted : ∀ a ∈ r.source.toList, TokenStream.Permitted a) :
    ∃ set d, (Cache.empty.get r).1 = .ok set ∧ set.documents = [d] ∧
      ((d.errors = [] ∧ ∃ info, d.root = some (.map info [])) ↔
        ∀ a ∈ r.source.toList, isNarrow a = true) ∧
      ('\t' ∈ r.source.toList → d.root = none ∧
        ∃ offset, d.errors = [Finding.ofFault ⟨.lex (.strayCharacter '\t'), offset⟩]) ∧
      ('\t' ∉ r.source.toList → (∃ a ∈ r.source.toList, isNarrow a = false) → d.errors = [] ∧
        ∃ info key value raw, d.root = some (.map info
          [.pair (some (.scalar key (.str raw) raw none))
            (some (.scalar value .null "" none))])) := by
  have hsource := toList_requestedText hroot hblank
  have hall : ∀ a ∈ r.source.toList, Blank a :=
    fun a ha => ⟨List.all_eq_true.1 hblank a ha, hpermitted a ha⟩
  -- A text of spaces and line breaks has neither a tab nor a wide blank; any other one has a tab,
  -- or else a wide blank.
  by_cases hnarrow : ∀ a ∈ r.source.toList, isNarrow a = true
  · rcases DocumentSet.parse_narrow hsource hall hnarrow r.customTags with
      ⟨set, d, hparse, hset, hmap⟩
    refine ⟨set, d, get_empty hparse, hset, iff_of_true hmap hnarrow, ?_, ?_⟩
    · intro htab
      cases hnarrow _ htab
    · rintro - ⟨a, ha, hwide⟩
      cases hwide.symm.trans (hnarrow a ha)
  · by_cases htab : '\t' ∈ r.source.toList
    · rcases DocumentSet.parse_tab hsource hall htab r.customTags with
        ⟨set, d, hparse, hset, hnone, herror⟩
      refine ⟨set, d, get_empty hparse, hset, iff_of_false ?_ hnarrow, fun _ => ⟨hnone, herror⟩,
        fun hnot => absurd htab hnot⟩
      rintro ⟨-, info, hmap⟩
      cases hnone.symm.trans hmap
    · have hwide : ∃ a ∈ r.source.toList, isNarrow a = false := by
        simpa using hnarrow
      rcases hwide with ⟨a, ha, hwide⟩
      rcases DocumentSet.parse_wide hsource hall htab ha hwide r.customTags with
        ⟨set, d, hparse, hset, herrors, info, key, value, raw, hpair⟩
      refine ⟨set, d, get_empty hparse, hset, iff_of_false ?_ hnarrow, fun hmem => absurd hmem htab,
        fun _ _ => ⟨herrors, info, key, value, raw, hpair⟩⟩
      rintro ⟨-, info', hmap⟩
      cases hpair.symm.trans hmap

def rootedRequest (source : String) : CacheRequest :=
  ⟨"a.yaml", some 1, source, [], true⟩

/-- Spaces and all kinds of line breaks stand for an empty map, and a space of another width does
not. -/
theorem get_of_blank_rootedRequest :
    (∃ set d info, (Cache.empty.get (rootedRequest " \r\n \u0085\u2028\n ")).1 = .ok set ∧
      set.documents = [d] ∧ d.errors = [] ∧ d.root = some (.map info [])) ∧
    ∃ set d info pair, (Cache.empty.get (rootedRequest " \u00a0\n\u3000 ")).1 = .ok set ∧
      set.documents = [d] ∧ d.errors = [] ∧ d.root = some (.map info [pair]) := by
  constructor
  · rcases @get_of_blank (rootedRequest " \r\n \u0085\u2028\n ") rfl (by decide)
      ((@TokenStream.forbiddenFrom_eq_none 0 _).1 (by decide)) with ⟨set, d, hget, hset, hmap, -, -⟩
    rcases hmap.2 (List.all_eq_true.1 (by decide)) with ⟨herrors, info, hroot⟩
    exact ⟨set, d, info, hget, hset, herrors, hroot⟩
  · rcases @get_of_blank (rootedRequest " \u00a0\n\u3000 ") rfl (by decide)
      ((@TokenStream.forbiddenFrom_eq_none 0 _).1 (by decide)) with
      ⟨set, d, hget, hset, -, -, hpair⟩
    rcases hpair (by decide) ⟨'\u00a0', by decide, by decide⟩ with
      ⟨herrors, info, key, value, raw, hroot⟩
    exact ⟨set, d, info, _, hget, hset, herrors, hroot⟩

/-- A tab is blank and may stand in a text, and put between braces it is no map but an error. -/
theorem get_tabRequest :
    Text.allBlank (rootedRequest "\t").source.toList = true ∧
      (∀ a ∈ (rootedRequest "\t").source.toList, TokenStream.Permitted a) ∧
      ∃ set d, (Cache.empty.get (rootedRequest "\t")).1 = .ok set ∧ set.documents = [d] ∧
        d.errors ≠ [] ∧ d.root = none := by
  have hpermitted : ∀ a ∈ (rootedRequest "\t").source.toList, TokenStream.Permitted a :=
    (@TokenStream.forbiddenFrom_eq_none 0 _).1 (by decide)
  have hblank : ∀ a ∈ (rootedRequest "\t").source.toList, Blank a :=
    fun a ha => ⟨List.all_eq_true.1 (by decide) a ha, hpermitted a ha⟩
  rcases DocumentSet.parse_tab (toList_requestedText rfl (by decide)) hblank (by decide) [] with
    ⟨set, d, hparse, hset, hnone, offset, herrors⟩
  refine ⟨by decide, hpermitted, set, d, get_empty hparse, hset, ?_, hnone⟩
  rw [herrors]
  exact List.cons_ne_nil _ _

end Cache
end YamlServer
