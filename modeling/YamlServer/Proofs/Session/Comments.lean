import YamlServer.Proofs.Comment.Agreement
import YamlServer.Proofs.Document.Comments
import YamlServer.Proofs.Document.Succession
import YamlServer.Proofs.Session.History
import YamlServer.Proofs.Text.Lines
import YamlServer.Proofs.Yaml.EventMark

/-!
# The document around a comment

A comment falls to the first document that ends behind it, while a cursor is resolved in the
document around it, or in the last one if it is in none. The two are the same document for a comment
that does not stand in front of its document. In front of a document that is not the last one, the
cursor is resolved in the last one.

* `DocumentSet.inOrder_of_parse`: the documents of a text stand in a row.
* `Session.resolveNode_comment`: what is found at a comment of an open text.
-/

namespace YamlServer

open Yaml Text

namespace Document

def extent (d : Document) : Nat × Nat :=
  (d.start, d.stop)

theorem Shows.extent_eq {d : Document} {x : Composed} {comments : List Comment}
    (h : d.Shows x comments) : d.extent = x.extent := by
  rw [extent, h.stop_eq, start, h.source]
  rfl

end Document

namespace DocumentSet

/-! ## Documents in a row -/

variable {source : String} {customTags : List String} {set : DocumentSet}

theorem fatal_eq_none_of_parse (h : parse source customTags = .ok set) :
    (TokenStream.ofText source).halt.filter isFatal = none := by
  rcases parse_cases source customTags with ⟨halt, -, herror⟩ | ⟨hfatal, -⟩
  · cases h.symm.trans herror
  · exact hfatal

theorem inOrder_composedOf (h : parse source customTags = .ok set) :
    InOrder Composed.extent 0 source.toList.length (composedOf source) := by
  have hbracketed : Bracketed [.stream] (eventsOf source).events :=
    EventStream.bracketed_ofTokens _
  refine (Composed.succession_ofEventsFrom [] hbracketed ?_ ?_ ?_).placed
  · exact EventStream.inOrder_ofTokens (TokenStream.inOrder_ofChars source.toList)
  · exact fun f hfault =>
      EventStream.inOrder_of_fault_ofChars (Composed.haltFault?_eq_some.1 hfault)
  · -- Events that do not come to their end are stopped, and not by a fatal halt.
    intro hunended _ hnone
    have hhalt : (eventsOf source).halt.isSome = true := by
      by_contra hnot
      rcases (complete_eventsOf_iff source).2 (by simpa using hnot) with ⟨e, he, hkind⟩
      exact hunended e he hkind
    have hfault := haltFault?_isSome (fatal_eq_none_of_parse h) hhalt
    rw [hnone] at hfault
    cases hfault

theorem inOrder_of_parse (h : parse source customTags = .ok set) :
    InOrder Document.extent 0 source.toList.length set.documents := by
  refine (inOrder_composedOf h).of_map_eq ?_
  rw [composedOf, ← map_fst_sharesOf, List.map_map]
  exact map_of_parse (fun hc hof => (Document.shows_ofComposed hc hof).extent_eq) h

/-! ## Signs of comments -/

theorem getElem?_offset {c : Comment} (hc : c ∈ commentsOf source) :
    source.toList[c.offset]? = some '#' :=
  (Comment.exists_mem_scan_iff.1 ⟨c, hc, rfl⟩).1.1.1

/-- No comment starts where a document stops. -/
theorem stop_ne_offset (h : parse source customTags = .ok set) {d : Document}
    (hd : d ∈ set.documents) {c : Comment} (hc : c ∈ commentsOf source) : d.stop ≠ c.offset := by
  rcases exists_share h hd with ⟨⟨x, comments⟩, hshare, hresolved, hof⟩
  have hmarked := Composed.marked_ofChars source.toList x (List.of_mem_zip hshare).1
  rw [(Document.shows_ofComposed hresolved hof).stop_eq]
  intro heq
  exact hmarked.stop (heq ▸ getElem?_offset hc)

/-! ## The document of an offset -/

def around (offset : Nat) (d : Document) : Bool :=
  d.start ≤ offset && offset ≤ d.stop

theorem documentAt?_ofNat (set : DocumentSet) (offset : Nat) :
    set.documentAt? (Int.ofNat offset) =
      (set.documents.find? (around offset)).or set.documents.getLast? := by
  have haround : (fun d : Document => decide (Int.ofNat d.start ≤ Int.ofNat offset) &&
      decide (Int.ofNat offset ≤ Int.ofNat d.stop)) = around offset := by
    funext d
    simp [around]
  rw [documentAt?, haround]
  cases set.documents.find? (around offset) <;> rfl

/-- The document around an offset, of documents in a row: if those before the one at `i` end in
front of the offset, it is this one unless it starts behind the offset. -/
theorem documentAt?_eq {size i offset : Nat} {d : Document}
    (horder : InOrder Document.extent 0 size set.documents) (hd : set.documents[i]? = some d)
    (hbehind : ∀ j d', j < i → set.documents[j]? = some d' → d'.stop < offset)
    (hbefore : i + 1 < set.documents.length → offset < d.stop) :
    set.documentAt? (Int.ofNat offset) =
      if d.start ≤ offset then some d else set.documents.getLast? := by
  rcases List.getElem?_eq_some_iff.1 hd with ⟨hi, hget⟩
  have hfront : ∀ j (hj : j < i), around offset set.documents[j] = false := by
    intro j hj
    have hstop := hbehind j _ hj (List.getElem?_eq_getElem (Nat.lt_trans hj hi))
    simp only [around, Bool.and_eq_false_iff, decide_eq_false_iff_not]
    omega
  rw [documentAt?_ofNat]
  by_cases haround : around offset d = true
  · -- It is the first one around the offset.
    have hfound : set.documents.find? (around offset) = some d := by
      refine List.find?_eq_some_iff_getElem.2 ⟨haround, i, hi, hget, ?_⟩
      intro j hj
      rw [hfront j hj]
      rfl
    simp only [around, Bool.and_eq_true, decide_eq_true_eq] at haround
    rw [hfound, if_pos haround.1]
    rfl
  · -- Those behind it start behind its end, so that none is around the offset.
    have hnone : set.documents.find? (around offset) = none := by
      refine List.find?_eq_none.2 ?_
      intro d' hd'
      rcases List.mem_iff_getElem.1 hd' with ⟨j, hj, rfl⟩
      rcases Nat.lt_trichotomy j i with hlt | rfl | hlt
      · rw [hfront j hlt]
        exact Bool.false_ne_true
      · rwa [hget]
      · have hapart := List.pairwise_iff_getElem.1 horder.ordered i j hi hj hlt
        have hwidth := (horder.inside d (List.mem_of_getElem? hd)).2.1
        have hstop := hbefore (by omega)
        rw [hget] at hapart
        simp only [Document.extent] at hapart hwidth
        simp only [around, Bool.and_eq_true, decide_eq_true_eq]
        omega
    rw [hnone, Option.none_or]
    split
    · rename_i hstart
      have hlast : i = set.documents.length - 1 := by
        by_contra hnot
        have hstop := hbefore (by omega)
        simp only [around, Bool.and_eq_true, decide_eq_true_eq] at haround
        omega
      rw [List.getLast?_eq_getElem?, ← hlast, hd]
    · rfl

theorem bounds_of_mem_block (h : parse source customTags = .ok set) {i : Nat} {d : Document}
    (hd : set.documents[i]? = some d) {c : Comment} (hc : c ∈ d.block) :
    (∀ j d', j < i → set.documents[j]? = some d' → d'.stop < c.offset) ∧
      (i + 1 < set.documents.length → c.offset < d.stop) := by
  have hblock : (Comment.distribute (set.documents.map Document.stop) (commentsOf source))[i]? =
      some d.block := by
    rw [← map_block_of_parse h, List.getElem?_map, hd]
    rfl
  rcases Comment.bounds_of_mem_distribute (Comment.pairwise_scan _ _) hblock hc with
    ⟨hbehind, hbefore⟩
  have hmem := (block_sublist_of_parse h (List.mem_of_getElem? hd)).subset hc
  constructor
  · intro j d' hj hd'
    refine Nat.lt_of_le_of_ne (hbehind j d'.stop hj (by simp [hd'])) ?_
    exact stop_ne_offset h (List.mem_of_getElem? hd') hmem
  · intro hlt
    exact hbefore d.stop (by simp [hd]) (by simpa using hlt)

theorem index_unique (h : parse source customTags = .ok set) {i j : Nat} {d d' : Document}
    (hd : set.documents[i]? = some d) (hd' : set.documents[j]? = some d') {c : Comment}
    (hc : c ∈ d.block) (hc' : c ∈ d'.block) : i = j := by
  have happly : ∀ {i j : Nat} {d d' : Document}, set.documents[i]? = some d →
      set.documents[j]? = some d' → c ∈ d.block → c ∈ d'.block → ¬ i < j := by
    intro i j d d' hd hd' hc hc' hlt
    have hlength := (List.getElem?_eq_some_iff.1 hd').1
    have hbehind := (bounds_of_mem_block h hd' hc').1 i d hlt hd
    have hbefore := (bounds_of_mem_block h hd hc).2 (by omega)
    omega
  have hij := happly hd hd' hc hc'
  have hji := happly hd' hd hc' hc
  omega

/-- The document around a comment is the one that it falls to, unless it stands in front of it and
another one follows. -/
theorem documentAt?_comment (h : parse source customTags = .ok set) {i : Nat} {d : Document}
    (hd : set.documents[i]? = some d) {c : Comment} (hc : c ∈ d.block) :
    (set.documentAt? (Int.ofNat c.offset) =
        if d.start ≤ c.offset then some d else set.documents.getLast?) ∧
      (set.documentAt? (Int.ofNat c.offset) = some d ↔
        d.start ≤ c.offset ∨ i + 1 = set.documents.length) := by
  rcases bounds_of_mem_block h hd hc with ⟨hbehind, hbefore⟩
  have hat := documentAt?_eq (inOrder_of_parse h) hd hbehind hbefore
  have hi := (List.getElem?_eq_some_iff.1 hd).1
  refine ⟨hat, ?_⟩
  rw [hat]
  split
  · rename_i hstart
    exact iff_of_true rfl (Or.inl hstart)
  · rename_i hstart
    rw [or_iff_right hstart, List.getLast?_eq_getElem?]
    constructor
    · intro hlast
      have hsame := index_unique h hd hlast hc hc
      omega
    · intro hlast
      rw [← hlast, Nat.add_sub_cancel]
      exact hd

/-! ## What is found -/

def describeIn (s : DocumentSet) (offset : Int) (d : Document) : CursorInfo :=
  let b := Lines.ofText s.source
  let found := d.resolve b offset
  ⟨(found.1.bind (Tree.nodeAt? d.visits)).map (Described.ofTree b), found.2,
    (found.1.map (keyPath d.visits)).getD []⟩

theorem describeAt_of_document {line column offset : Int} {d : Document}
    (hoffset : (Lines.ofText set.source).offset? line column = some offset)
    (hd : set.documentAt? offset = some d) :
    set.describeAt line column = some (set.describeIn offset d) := by
  simp only [describeAt, hoffset, Option.bind_eq_bind, Option.bind_some, hd]
  rfl

end DocumentSet

namespace Session

open DocumentSet

variable {ms : List Message} {uri : String} {t : OpenText} {set : DocumentSet}

theorem allBlank_of_mem_commentsOf {source : String} {c : Comment} (hc : c ∈ commentsOf source) :
    allBlank source.toList = false := by
  rw [allBlank, List.all_eq_false]
  exact ⟨'#', List.mem_of_getElem? (getElem?_offset hc), by decide⟩

/-- The node at a cursor of an open text that is not blank is looked for in the document around
it. -/
theorem answer_resolveNode (h : Message.Versioned ms)
    (hopen : (run ms).texts.lookup uri = some t) (hblank : allBlank t.text.toList = false)
    (hparse : parse t.text (run ms).settings.customTags = .ok set) {line column offset : Int}
    {d : Document} (hoffset : (Lines.ofText t.text).offset? line column = some offset)
    (hd : set.documentAt? offset = some d) :
    ((run ms).resolveNode uri line column).answer = .ok (some (set.describeIn offset d)) := by
  have hanswer := (sound_run ms).answer_parsed (fun _ _ _ => h.text_eq) hopen hblank
  have hrequested : Cache.requestedText ((run ms).request uri t) = t.text :=
    Cache.requestedText_of_not_blank hblank
  rw [hrequested, hparse] at hanswer
  rw [← source_of_parse hparse] at hoffset
  rw [resolveNode, Effect.bind_of_ok _ hanswer]
  simp only [describeAt_of_document hoffset hd]
  rfl

/-- After any messages in which a version has one text between two closes, every comment of an open
text falls to one of its documents. At the comment, nodes are looked for in that document, if the
comment does not stand in front of it or if it is the last one, and else in the last one. -/
theorem resolveNode_comment (h : Message.Versioned ms)
    (hopen : (run ms).texts.lookup uri = some t)
    (hparse : parse t.text (run ms).settings.customTags = .ok set) (hne : set.documents ≠ [])
    {c : Comment} (hc : c ∈ commentsOf t.text) :
    ∃ i d, set.documents[i]? = some d ∧ c ∈ d.block ∧
      (∀ j d', set.documents[j]? = some d' → c ∈ d'.block → j = i) ∧
      (set.documentAt? (Int.ofNat c.offset) = some d ↔
        d.start ≤ c.offset ∨ i + 1 = set.documents.length) ∧
      ∃ found, set.documentAt? (Int.ofNat c.offset) = some found ∧
        (¬ d.start ≤ c.offset → set.documents.getLast? = some found) ∧
        let p := Range.positionAt (Lines.ofText t.text) (Int.ofNat c.offset)
        ((run ms).resolveNode uri p.line p.character).answer =
          .ok (some (set.describeIn (Int.ofNat c.offset) found)) := by
  have hfalls : c ∈ set.documents.flatMap Document.block := by
    rw [flatMap_block_of_parse hparse hne]
    exact hc
  rcases List.mem_flatMap.1 hfalls with ⟨d, hmem, hblock⟩
  rcases List.mem_iff_getElem?.1 hmem with ⟨i, hd⟩
  rcases documentAt?_comment hparse hd hblock with ⟨hat, hagree⟩
  refine ⟨i, d, hd, hblock, fun j d' hd' hc' => index_unique hparse hd' hd hc' hblock, hagree, ?_⟩
  have hfound : ∃ found, set.documentAt? (Int.ofNat c.offset) = some found := by
    rw [hat]
    split
    · exact ⟨d, rfl⟩
    · exact ⟨_, List.getLast?_eq_some_getLast hne⟩
  rcases hfound with ⟨found, hfound⟩
  refine ⟨found, hfound, ?_, ?_⟩
  · intro hstart
    rw [← hfound, hat, if_neg hstart]
  · refine answer_resolveNode h hopen (allBlank_of_mem_commentsOf hc) hparse ?_ hfound
    exact Lines.offset?_position (getElem?_offset hc) (by decide) (by decide)

/-- Two documents, a comment on a line of the first one and one behind the mark of the second. -/
def partedText : OpenText :=
  ⟨some 1, "a: 1 # x\n--- # y\nb: 2\n"⟩

theorem versioned_openText (uri : String) (t : OpenText) :
    Message.Versioned [.openText uri t] := by
  have hfirst : Message.Versioned ([] ++ [.openText uri t]) :=
    Message.Versioned.nil.concat fun _ _ _ ht => absurd ht Message.not_noticed_nil
  exact hfirst

theorem run_openText (uri : String) (t : OpenText) :
    (run [.openText uri t]).texts.lookup uri = some t ∧
      (run [.openText uri t]).settings.customTags = [] := by
  rcases openText_session uri t start with ⟨hopen, hsettings, -⟩
  exact ⟨hopen, congrArg Settings.customTags hsettings⟩

theorem resolveNode_comment_partedText :
    ∃ set d c, Message.Versioned [.openText "a.yaml" partedText] ∧
      (run [.openText "a.yaml" partedText]).texts.lookup "a.yaml" = some partedText ∧
      parse partedText.text (run [.openText "a.yaml" partedText]).settings.customTags = .ok set ∧
      set.documents.length = 2 ∧ set.documents[0]? = some d ∧ c ∈ d.block ∧ c.text = " x" ∧
      ((run [.openText "a.yaml" partedText]).resolveNode "a.yaml" 0 5).answer =
        .ok (some (set.describeIn 5 d)) := by
  have hread : (do
      let documents ← (convert [] (sharesOf partedText.text)).toOption
      let d ← documents[0]?
      let c ← d.block.head?
      return (c, d.start, documents.length)) = some (⟨5, 0, " x", true⟩, 0, 2) := by
    rw [sharesOf_eq]
    decide +kernel
  simp only [Option.bind_eq_bind, Option.bind_eq_some_iff] at hread
  rcases hread with ⟨documents, hconvert, d, hd, c, hhead, hdata⟩
  simp only [Option.pure_def, Option.some.injEq, Prod.mk.injEq] at hdata
  rcases hdata with ⟨rfl, hstart, hlength⟩
  rcases exists_parse_of_convert (by decide +kernel) hconvert with ⟨set, hparse, rfl⟩
  rcases run_openText "a.yaml" partedText with ⟨hopen, htags⟩
  rw [← htags] at hparse
  have hblock := List.mem_of_head? hhead
  have hmem := List.mem_of_getElem? hd
  have hc := (block_sublist_of_parse hparse hmem).subset hblock
  rcases resolveNode_comment (versioned_openText _ _) hopen hparse (List.ne_nil_of_mem hmem) hc with
    ⟨i, d', hd', -, hunique, hagree, found, hfound, -, hanswer⟩
  -- The comment falls to the first document, which starts before it.
  rw [← hunique 0 d hd hblock] at hd' hagree
  cases hd.symm.trans hd'
  rw [hagree.2 (Or.inl (by rw [hstart]; exact Nat.zero_le _))] at hfound
  cases hfound
  have hposition : Range.positionAt (Lines.ofText partedText.text) (Int.ofNat 5) = ⟨0, 5⟩ := by
    decide +kernel
  dsimp only at hanswer
  rw [hposition] at hanswer
  exact ⟨set, d, _, versioned_openText _ _, hopen, hparse, hlength, hd, hblock, rfl, hanswer⟩

def leadingText : OpenText :=
  ⟨some 1, "# c\na: 1\n---\nb: 2\n"⟩

/-- The comment falls to the first document, and its line is resolved in the second one. -/
theorem resolveNode_leadingText :
    ∃ set d c, parse leadingText.text (run [.openText "a.yaml" leadingText]).settings.customTags =
        .ok set ∧
      set.documents.length = 2 ∧ set.documents[0]? = some d ∧ c ∈ d.block ∧
      Range.positionAt (Lines.ofText leadingText.text) (Int.ofNat c.offset) = ⟨0, 0⟩ ∧
      set.documentAt? (Int.ofNat c.offset) ≠ some d ∧
      (((run [.openText "a.yaml" leadingText]).resolveNode "a.yaml" 0 0).answer.toOption.map
        fun info => info.map (·.keyPath)) = some (some [some "b"]) := by
  have hread : (do
      let documents ← (convert [] (sharesOf leadingText.text)).toOption
      let d ← documents[0]?
      let c ← d.block.head?
      return (c, d.start, documents.length)) = some (⟨0, 0, " c", false⟩, 4, 2) := by
    rw [sharesOf_eq]
    decide +kernel
  simp only [Option.bind_eq_bind, Option.bind_eq_some_iff] at hread
  rcases hread with ⟨documents, hconvert, d, hd, c, hhead, hdata⟩
  simp only [Option.pure_def, Option.some.injEq, Prod.mk.injEq] at hdata
  rcases hdata with ⟨rfl, hstart, hlength⟩
  rcases exists_parse_of_convert (by decide +kernel) hconvert with ⟨set, hparse, rfl⟩
  rw [(run_openText "a.yaml" leadingText).2]
  have hblock := List.mem_of_head? hhead
  refine ⟨set, d, _, hparse, hlength, hd, hblock, by decide +kernel, ?_, by decide +kernel⟩
  rw [Ne, (documentAt?_comment hparse hd hblock).2, hstart, hlength]
  decide

end Session
end YamlServer
