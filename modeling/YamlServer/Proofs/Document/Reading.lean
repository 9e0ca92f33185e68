import YamlServer.Document.Basic
import YamlServer.Proofs.Tree.Converter
import YamlServer.Proofs.Tree.Scalars
import YamlServer.Proofs.Yaml.Anchors
import YamlServer.Proofs.Yaml.Halts
import YamlServer.Proofs.Yaml.TokenEnd

/-!
# Which texts are read, and where their faults show

A text is read unless it holds a forbidden character, an escape or a version number without a value,
or a scalar without one. Whatever else is wrong with it shows in the documents: the first fault of
the tokens, the grammar or the anchors is an error of a document, and a scalar whose text cannot be
read keeps it.

* `DocumentSet.readable_of_text`: a text without the characters that cause trouble is readable.
-/

namespace YamlServer

open Yaml Outcome

def Finding.ofFault (f : Fault) : Finding :=
  ⟨f.message, .error, f.offset, f.offset, true⟩

/-! ## Documents -/

namespace Yaml.Composed

def texts (c : Composed) : List (String × String) :=
  match c.root with
  | none => []
  | some n => n.texts

def findings (c : Composed) : List Finding :=
  c.fault.toList.map Finding.ofFault

end Yaml.Composed

namespace Document

def scalars (d : Document) : List (Option String × String × Value) :=
  match d.root with
  | none => []
  | some t => t.scalars

@[simp]
theorem errors_of_source (root : Option Tree) (c : Composed) (attached : Attached)
    (customTags : List String) :
    (⟨root, some ⟨c, attached⟩, customTags⟩ : Document).errors = c.findings := by
  rw [errors, Composed.findings, Option.bind_some]
  cases c.fault with
  | none => rfl
  | some f => rfl

/-- A document keeps what it was composed from, and its tree is the image of the composed root. -/
theorem root_ofComposed {customTags : List String} {c : Composed} {comments : List Comment}
    {d : Document} (hc : c.Resolved) (h : ofComposed customTags c comments = .ok d) :
    d.source = some ⟨c, Attached.ofComments c.root comments⟩ ∧
      (c.root = none ∧ d.root = none ∨
        ∃ n t, c.root = some n ∧ Tree.image (Attached.ofComments c.root comments) n = .ok t ∧
          d.root = some t) := by
  unfold ofComposed at h
  dsimp only at h
  split at h
  · rename_i hroot
    cases h
    exact ⟨rfl, Or.inl ⟨hroot, rfl⟩⟩
  · rename_i n hroot
    rcases bind_eq_ok.1 h with ⟨t, ht, hlast⟩
    cases hlast
    rw [Tree.ofNode_eq_image (hc n hroot)] at ht
    exact ⟨rfl, Or.inr ⟨n, t, hroot, ht, rfl⟩⟩

theorem exists_node_of_root {customTags : List String} {c : Composed} {comments : List Comment}
    {d : Document} {root : Tree} (hc : c.Resolved) (h : ofComposed customTags c comments = .ok d)
    (hroot : d.root = some root) :
    ∃ n, c.root = some n ∧ Tree.image (Attached.ofComments c.root comments) n = .ok root := by
  rcases (root_ofComposed hc h).2 with ⟨-, hnone⟩ | ⟨n, t, hn, htree, hsome⟩
  · cases hnone.symm.trans hroot
  · cases hsome.symm.trans hroot
    exact ⟨n, hn, htree⟩

/-- A document has the scalars and the error of the composed one. -/
theorem map_ofComposed (customTags : List String) {c : Composed} (hc : c.Resolved)
    (comments : List Comment) :
    (ofComposed customTags c comments).map (fun d => (d.scalars, d.errors)) =
      (c.texts.mapM Tree.scalarOf).map (·, c.findings) := by
  unfold ofComposed Composed.texts
  cases hroot : c.root with
  | none => exact congrArg (fun errors => Except.ok ([], errors)) (errors_of_source _ _ _ _)
  | some n =>
    have hscalars := Tree.map_scalars_image (Attached.ofComments (some n) comments) n
    dsimp only
    rw [← hscalars, Tree.ofNode_eq_image (hc n hroot)]
    cases Tree.image (Attached.ofComments (some n) comments) n with
    | error f => rfl
    | ok root =>
      exact congrArg (fun errors => Except.ok (root.scalars, errors)) (errors_of_source _ _ _ _)

end Document

/-! ## Texts -/

namespace DocumentSet

/-- All documents have the scalars and the errors of the composed ones. -/
theorem map_convert (customTags : List String) {shares : List (Composed × List Comment)}
    (hresolved : ∀ share ∈ shares, share.1.Resolved) :
    (convert customTags shares).map
        (fun ds => (ds.flatMap Document.scalars, ds.flatMap Document.errors)) =
      ((shares.flatMap (·.1.texts)).mapM Tree.scalarOf).map (·, shares.flatMap (·.1.findings)) := by
  -- On the documents. Either side fails if one of its parts does, so each part is split.
  induction shares with
  | nil => rfl
  | cons share rest ih =>
    rcases share with ⟨c, comments⟩
    have hfirst := Document.map_ofComposed customTags (hresolved _ List.mem_cons_self) comments
    have ih := ih fun share hshare => hresolved share (List.mem_cons_of_mem _ hshare)
    rw [convert, List.flatMap_cons, List.flatMap_cons, List.mapM_append]
    cases hd : Document.ofComposed customTags c comments with
    | error f =>
      rw [hd] at hfirst
      rw [map_eq_error.1 hfirst.symm]
      rfl
    | ok d =>
      rw [hd] at hfirst
      rcases map_eq_ok.1 hfirst.symm with ⟨scalars, hscalars, heq⟩
      cases hmore : convert customTags rest with
      | error f =>
        rw [hmore] at ih
        rw [hscalars, map_eq_error.1 ih.symm]
        rfl
      | ok more =>
        rw [hmore] at ih
        rcases map_eq_ok.1 ih.symm with ⟨others, hothers, heq'⟩
        rcases Prod.mk.inj heq with ⟨hs, he⟩
        rcases Prod.mk.inj heq' with ⟨hs', he'⟩
        rw [hscalars, hothers, he, he', hs, hs']
        rfl

def eventsOf (source : String) : EventStream :=
  EventStream.ofTokens (TokenStream.ofText source)

def textsOf (source : String) : List (String × String) :=
  (Composed.ofEvents source.toList.length (eventsOf source)).flatMap Composed.texts

/-- The first fault of a text: that of an anchor or an alias, or else the one by which its tokens or
events stop. -/
def rejection? (source : String) : Option Fault :=
  (anchorFault? [] (eventsOf source).events).or (Composed.haltFault? (eventsOf source).halt)

/-- What a text must be to be read. -/
structure Readable (source : String) : Prop where
  permitted : ∀ c ∈ source.toList, TokenStream.Permitted c
  escapes : ∀ n, (TokenStream.ofText source).halt ≠ some (.codePoint n)
  version : (TokenStream.ofText source).halt ≠ some .longNumeral
  valued : ∀ s ∈ textsOf source, ¬ Scalar.Unvalued s.1 s.2

/-- Documents of a text that show its fault and keep its scalars. -/
structure Reports (source : String) (set : DocumentSet) : Prop where
  /-- The first fault is the only error. -/
  errors : set.documents.flatMap Document.errors = (rejection? source).toList.map Finding.ofFault
  /-- There is no fault only if the tokens and the events were read to the end of the stream and
  the anchors are right. -/
  complete : rejection? source = none ↔ (TokenStream.ofText source).Complete ∧
    (eventsOf source).Complete ∧ anchorFault? [] (eventsOf source).events = none
  /-- Every scalar is there, with its tag and its text. -/
  texts : ((set.documents.flatMap Document.scalars).map fun r => (r.1, r.2.1)) =
    (textsOf source).map fun s => (some s.1, s.2)
  /-- Its value is what the text writes, or the text itself if it writes none. -/
  valued : ∀ r ∈ set.documents.flatMap Document.scalars,
    ∃ tag, r.1 = some tag ∧ Tree.Valued tag r.2.1 r.2.2

theorem fatal_eq_none_iff (source : String) :
    (TokenStream.ofText source).halt.filter isFatal = none ↔
      (∀ c ∈ source.toList, TokenStream.Permitted c) ∧
        (∀ n, (TokenStream.ofText source).halt ≠ some (.codePoint n)) ∧
        (TokenStream.ofText source).halt ≠ some .longNumeral := by
  rw [TokenStream.ofText]
  -- A forbidden character is a halt of its own; without one, every halt comes from reading tokens.
  by_cases hpermitted : ∀ c ∈ source.toList, TokenStream.Permitted c
  · cases hhalt : (TokenStream.ofChars source.toList).halt with
    | none => exact iff_of_true rfl ⟨hpermitted, (fun n h => nomatch h), fun h => nomatch h⟩
    | some halt =>
      cases TokenStream.arises_ofChars hpermitted hhalt with
      | lex p offset =>
        exact iff_of_true rfl ⟨hpermitted, (fun n h => nomatch h), fun h => nomatch h⟩
      | codePoint h => exact iff_of_false (Option.some_ne_none _) fun hr => hr.2.1 _ rfl
      | longNumeral h => exact iff_of_false (Option.some_ne_none _) fun hr => hr.2.2 rfl
  · rcases TokenStream.halt_ofChars_forbidden hpermitted with ⟨c, index, hhalt⟩
    rw [hhalt]
    exact iff_of_false (Option.some_ne_none _) fun h => hpermitted h.1

/-- A stream that is stopped otherwise is stopped by a fault. -/
theorem haltFault?_isSome {source : String}
    (hfatal : (TokenStream.ofText source).halt.filter isFatal = none)
    (h : (eventsOf source).halt.isSome) : (Composed.haltFault? (eventsOf source).halt).isSome := by
  rcases Option.isSome_iff_exists.1 h with ⟨halt, hhalt⟩
  -- The events stop where the tokens do, or at a fault of the grammar.
  rcases (EventStream.run_ofTokens _).halt_cases hhalt with htokens | ⟨f, rfl⟩
  · rw [htokens] at hfatal
    rw [hhalt]
    cases halt with
    | fault f => rfl
    | codePoint n => cases hfatal
    | longNumeral => cases hfatal
  · rw [hhalt]
    rfl

/-- What stops the tokens stops the events: without the end of the stream they run into the stop. -/
theorem halt_eventsOf_isSome (source : String) (h : (TokenStream.ofText source).halt.isSome) :
    (eventsOf source).halt.isSome := by
  refine EventStream.halt_ofTokens_isSome ?_ h
  intro t ht hkind
  rw [TokenStream.ofText, TokenStream.halt_ofChars_of_streamEnd ht hkind] at h
  cases h

/-- The events of a text come to their end if nothing stops them. -/
theorem complete_eventsOf_iff (source : String) :
    (eventsOf source).Complete ↔ (eventsOf source).halt = none := by
  constructor
  · rintro ⟨e, he, hkind⟩
    exact (EventStream.run_ofTokens _).halt_of_streamEnd he hkind
  · intro hhalt
    cases hstop : (TokenStream.ofText source).halt with
    | none => exact EventStream.complete_ofTokens (TokenStream.exists_streamEnd_ofChars hstop) hhalt
    | some halt =>
      have hstops := halt_eventsOf_isSome source (by rw [hstop]; rfl)
      rw [hhalt] at hstops
      cases hstops

/-- No fault is lost: a text without one is read to its end. -/
theorem rejection?_eq_none_iff {source : String}
    (hfatal : (TokenStream.ofText source).halt.filter isFatal = none) :
    rejection? source = none ↔ (TokenStream.ofText source).Complete ∧
      (eventsOf source).Complete ∧ anchorFault? [] (eventsOf source).events = none := by
  rw [rejection?, Option.or_eq_none_iff, complete_eventsOf_iff, TokenStream.ofText,
    TokenStream.complete_ofChars_iff]
  constructor
  · rintro ⟨hanchor, hhalt⟩
    have hnone : (eventsOf source).halt = none := by
      cases hstop : (eventsOf source).halt with
      | none => rfl
      | some halt =>
        have hfault := haltFault?_isSome hfatal (by rw [hstop]; rfl)
        rw [hhalt] at hfault
        cases hfault
    refine ⟨?_, hnone, hanchor⟩
    cases hstop : (TokenStream.ofChars source.toList).halt with
    | none => rfl
    | some halt =>
      have hstops := halt_eventsOf_isSome source (by rw [TokenStream.ofText, hstop]; rfl)
      rw [hnone] at hstops
      cases hstops
  · rintro ⟨-, hhalt, hanchor⟩
    refine ⟨hanchor, ?_⟩
    rw [hhalt]
    rfl

@[simp]
theorem length_distribute (stops : List Nat) (comments : List Comment) :
    (Comment.distribute stops comments).length = stops.length := by
  fun_induction Comment.distribute stops comments with
  | case1 => rfl
  | case2 => rfl
  | case3 =>
    rename_i ih
    exact congrArg Nat.succ ih

def commentsOf (source : String) : List Comment :=
  Comment.scan source.toList (TokenStream.ofText source).tokens

def sharesOf (source : String) : List (Composed × List Comment) :=
  let composed := Composed.ofEvents source.toList.length (eventsOf source)
  composed.zip (Comment.distribute (composed.map (·.stop)) (commentsOf source))

/-- Each composed document has its share of the comments, so that zipping drops none. -/
@[simp]
theorem map_fst_sharesOf (source : String) :
    (sharesOf source).map (·.1) = Composed.ofEvents source.toList.length (eventsOf source) := by
  refine List.map_fst_zip (Nat.le_of_eq ?_)
  rw [length_distribute, List.length_map]

/-- Every document of a set was made from a composed one. -/
theorem mem_convert {customTags : List String} {shares : List (Composed × List Comment)}
    {documents : List Document} (h : convert customTags shares = .ok documents) {d : Document}
    (hd : d ∈ documents) :
    ∃ share ∈ shares, Document.ofComposed customTags share.1 share.2 = .ok d := by
  induction shares generalizing documents with
  | nil =>
    cases h
    cases hd
  | cons share rest ih =>
    rcases bind_eq_ok.1 h with ⟨first, hfirst, hrest⟩
    rcases bind_eq_ok.1 hrest with ⟨more, hmore, hlast⟩
    cases hlast
    rcases List.mem_cons.1 hd with rfl | hd
    · exact ⟨share, List.mem_cons_self, hfirst⟩
    · rcases ih hmore hd with ⟨share', hshare', hof⟩
      exact ⟨share', List.mem_cons_of_mem _ hshare', hof⟩

theorem resolved_of_mem_sharesOf {source : String} {share : Composed × List Comment}
    (h : share ∈ sharesOf source) : share.1.Resolved :=
  Composed.resolved_of_mem (List.of_mem_zip h).1

/-- The documents of a text are converted from its shares. -/
theorem convert_of_parse {source : String} {customTags : List String} {set : DocumentSet}
    (h : parse source customTags = .ok set) :
    convert customTags (sharesOf source) = .ok set.documents := by
  unfold parse at h
  dsimp only at h
  split at h
  · cases h
  · split at h
    · cases h
    · rename_i documents hconvert
      cases h
      exact hconvert

/-- Every document of a text was made from a composed one, which is resolved. -/
theorem exists_share {source : String} {customTags : List String} {set : DocumentSet} {d : Document}
    (h : parse source customTags = .ok set) (hd : d ∈ set.documents) :
    ∃ share ∈ sharesOf source, share.1.Resolved ∧
      Document.ofComposed customTags share.1 share.2 = .ok d := by
  rcases mem_convert (convert_of_parse h) hd with ⟨share, hshare, hof⟩
  exact ⟨share, hshare, resolved_of_mem_sharesOf hshare, hof⟩

/-- What is the same for a document and its share is the same for all of them. -/
theorem map_of_parse {α : Type} {f : Document → α} {g : Composed × List Comment → α}
    {source : String} {customTags : List String} {set : DocumentSet}
    (hf : ∀ {share d}, share.1.Resolved →
      Document.ofComposed customTags share.1 share.2 = .ok d → f d = g share)
    (h : parse source customTags = .ok set) : set.documents.map f = (sharesOf source).map g := by
  have hconvert := convert_of_parse h
  have hresolved : ∀ share ∈ sharesOf source, share.1.Resolved := fun _ => resolved_of_mem_sharesOf
  revert hconvert hresolved
  generalize sharesOf source = shares, set.documents = documents
  intro hconvert hresolved
  induction shares generalizing documents with
  | nil =>
    cases hconvert
    rfl
  | cons share rest ih =>
    rcases bind_eq_ok.1 hconvert with ⟨first, hfirst, hrest⟩
    rcases bind_eq_ok.1 hrest with ⟨more, hmore, hlast⟩
    cases hlast
    rw [List.map_cons, List.map_cons, hf (hresolved _ List.mem_cons_self) hfirst,
      ih more hmore fun share hshare => hresolved share (List.mem_cons_of_mem _ hshare)]

/-- What reading a text does: it stops at a fatal halt, or it converts all composed documents. -/
theorem parse_cases (source : String) (customTags : List String) :
    (∃ halt, (TokenStream.ofText source).halt.filter isFatal = some halt ∧
        parse source customTags = .error (.halt halt)) ∨
      (TokenStream.ofText source).halt.filter isFatal = none ∧
        ∃ shares : List (Composed × List Comment),
          shares.map (·.1) = Composed.ofEvents source.toList.length (eventsOf source) ∧
          parse source customTags = match convert customTags shares with
            | .error f => .error (.scalar f)
            | .ok documents => .ok ⟨documents, (TokenStream.ofText source).tokens, source⟩ := by
  have hstream : TokenStream.ofChars source.toList = TokenStream.ofText source := rfl
  unfold parse
  dsimp only
  rw [hstream]
  split
  · rename_i halt hfatal
    exact Or.inl ⟨halt, hfatal, rfl⟩
  · rename_i hfatal
    exact Or.inr ⟨hfatal, sharesOf source, map_fst_sharesOf source, rfl⟩

theorem findings_of_composed (composed : List Composed) :
    composed.flatMap Composed.findings =
      (composed.filterMap (·.fault)).map Finding.ofFault := by
  induction composed with
  | nil => rfl
  | cons c rest ih =>
    rw [List.flatMap_cons, ih, Composed.findings]
    cases hfault : c.fault with
    | none => rw [List.filterMap_cons_none hfault]; rfl
    | some f => rw [List.filterMap_cons_some hfault]; rfl

/-- Converting the composed documents of a text gives all its scalars values, and shows its first
fault. -/
theorem map_convert_shares {source : String} {shares : List (Composed × List Comment)}
    (customTags : List String)
    (hshares : shares.map (·.1) = Composed.ofEvents source.toList.length (eventsOf source)) :
    (convert customTags shares).map
        (fun ds => (ds.flatMap Document.scalars, ds.flatMap Document.errors)) =
      ((textsOf source).mapM Tree.scalarOf).map
        (·, (rejection? source).toList.map Finding.ofFault) := by
  have htexts : shares.flatMap (·.1.texts) = textsOf source := by
    rw [textsOf, ← hshares, List.flatMap_map]
  have hfindings : shares.flatMap (·.1.findings) =
      (rejection? source).toList.map Finding.ofFault := by
    calc
      shares.flatMap (·.1.findings)
          = (shares.map (·.1)).flatMap Composed.findings := by rw [List.flatMap_map]
      _ = ((shares.map (·.1)).filterMap (·.fault)).map Finding.ofFault := findings_of_composed _
      _ = (rejection? source).toList.map Finding.ofFault := by
            rw [hshares, eventsOf, Composed.faults_ofEvents]
            rfl
  have hresolved : ∀ share ∈ shares, share.1.Resolved := by
    intro share hshare
    exact Composed.resolved_of_mem (hshares ▸ List.mem_map_of_mem hshare)
  rw [map_convert customTags hresolved, htexts, hfindings]

theorem exists_parse_iff (source : String) (customTags : List String) :
    (∃ set, parse source customTags = .ok set) ↔ Readable source := by
  rcases parse_cases source customTags with
    ⟨halt, hfatal, hparse⟩ | ⟨hfatal, shares, hshares, hparse⟩
  · refine iff_of_false ?_ ?_
    · rintro ⟨set, hset⟩
      rw [hparse] at hset
      cases hset
    · intro hreadable
      have hnone := (fatal_eq_none_iff source).2
        ⟨hreadable.permitted, hreadable.escapes, hreadable.version⟩
      rw [hfatal] at hnone
      cases hnone
  · rcases (fatal_eq_none_iff source).1 hfatal with ⟨hpermitted, hescapes, hversion⟩
    -- Without a fatal halt only the conversion can fail, which is that of the scalars.
    have hconvert := map_convert_shares customTags hshares
    constructor
    · rintro ⟨set, hset⟩
      refine ⟨hpermitted, hescapes, hversion, Tree.mapM_scalarOf_isOk.1 ?_⟩
      cases hdocuments : convert customTags shares with
      | error f =>
        rw [hparse, hdocuments] at hset
        cases hset
      | ok documents =>
        rw [hdocuments] at hconvert
        rcases map_eq_ok.1 hconvert.symm with ⟨scalars, hscalars, -⟩
        exact ⟨scalars, hscalars⟩
    · intro hreadable
      rcases Tree.mapM_scalarOf_isOk.2 hreadable.valued with ⟨scalars, hscalars⟩
      rw [hscalars] at hconvert
      rcases map_eq_ok.1 hconvert with ⟨documents, hdocuments, -⟩
      rw [hdocuments] at hparse
      exact ⟨_, hparse⟩

/-- The documents that are read report whatever is rejected. -/
theorem reports_of_parse {source : String} {customTags : List String} {set : DocumentSet}
    (h : parse source customTags = .ok set) : Reports source set := by
  rcases parse_cases source customTags with
    ⟨halt, hfatal, hparse⟩ | ⟨hfatal, shares, hshares, hparse⟩
  · rw [hparse] at h
    cases h
  · have hconvert := map_convert_shares customTags hshares
    cases hdocuments : convert customTags shares with
    | error f =>
      rw [hparse, hdocuments] at h
      cases h
    | ok documents =>
      rw [hparse, hdocuments] at h
      cases h
      rw [hdocuments] at hconvert
      rcases map_eq_ok.1 hconvert.symm with ⟨scalars, hscalars, heq⟩
      rcases Prod.mk.inj heq with ⟨rfl, herrors⟩
      rcases Tree.mapM_scalarOf_eq_ok hscalars with ⟨htexts, hvalued⟩
      exact ⟨herrors.symm, rejection?_eq_none_iff hfatal, htexts, hvalued⟩

/-- The readable texts are read, and their documents report whatever is rejected. -/
theorem parse_reports (source : String) (customTags : List String) :
    ((∃ set, parse source customTags = .ok set) ↔ Readable source) ∧
      ∀ set, parse source customTags = .ok set → Reports source set :=
  ⟨exists_parse_iff source customTags, fun _ => reports_of_parse⟩

def taggedWord : String :=
  "!!bool foo"

theorem parse_taggedWord : ¬ ∃ set, parse taggedWord [] = .ok set := by
  have hfails : (parse taggedWord []).toOption.isNone = true := by decide +kernel
  rintro ⟨set, hset⟩
  rw [hset] at hfails
  cases hfails

-- A fault of the grammar leaves a document with one error.
example : ((parse "a: [b\nc" []).toOption.map fun set =>
    (set.documents.flatMap Document.errors).length) = some 1 := by
  decide +kernel

/-- What keeps a text from being read shows in it. -/
theorem readable_of_text {source : String}
    (hpermitted : ∀ c ∈ source.toList, TokenStream.Permitted c)
    (hescape : ∀ n, ¬ LargeEscape n source.toList) (hnumber : ¬ LongNumber source.toList)
    (hvalued : ∀ s ∈ textsOf source, ¬ Scalar.Unvalued s.1 s.2) : Readable source := by
  -- A halt arises from characters of the text that are excluded here.
  have harises : ∀ halt, (TokenStream.ofText source).halt = some halt →
      halt.Arises source.toList := fun halt => TokenStream.arises_ofChars hpermitted
  refine ⟨hpermitted, ?_, ?_, hvalued⟩
  · intro n hhalt
    cases harises _ hhalt with
    | codePoint h => exact hescape n h
  · intro hhalt
    cases harises _ hhalt with
    | longNumeral h => exact hnumber h

end DocumentSet
end YamlServer
