import Mathlib.Data.List.Forall2
import YamlServer.Proofs.Document.Caching
import YamlServer.Proofs.Outcome

/-!
# Declared tags

A list of entries declares tags for kinds of nodes. All that counts is which tag is declared for
which kind: neither the order of the entries nor their number, nor the blanks in them. Declaring
more takes warnings away and changes nothing else about the documents of a text.

* `declarations`: the tags and kinds that entries declare.
* `DocumentSet.warnings_of_declared`: what becomes of the warnings.
-/

namespace YamlServer

open Outcome Yaml

/-! ## Entries -/

/-- The kind that the words behind a tag name: the first one in lower case, scalars if there is
none. -/
def declaredKind : List String → String
  | [] => "scalar"
  | kind :: _ => Text.lower kind

/-- The tag and the kind that an entry declares; a blank entry declares nothing. -/
def declaration? (entry : String) : Option (String × String) :=
  (Text.words entry).head?.map fun tag => (tag, declaredKind (Text.words entry).tail)

def declarations (entries : List String) : List (String × String) :=
  entries.filterMap declaration?

def withKind (d : String × String) (tag : String) (kinds : List String) : List String :=
  if tag == d.1 && !kinds.contains d.2 then kinds ++ [d.2] else kinds

def declare (table : List (String × List String)) (d : String × String) :
    List (String × List String) :=
  if table.any (·.1 == d.1) then table.map fun e => (e.1, withKind d e.1 e.2)
  else table ++ [(d.1, [d.2])]

def kindsOf (table : List (String × List String)) (tag : String) : List String :=
  (table.lookup tag).getD []

theorem tagKinds_concat_of_none {entries : List String} {entry : String}
    (h : declaration? entry = none) : tagKinds (entries ++ [entry]) = tagKinds entries := by
  have hwords : Text.words entry = [] := by simpa [declaration?] using h
  simp only [tagKinds, List.foldl_append, List.foldl_cons, List.foldl_nil, hwords]

/-- The last entry is declared on top of those before it. -/
theorem tagKinds_concat_of_some {entries : List String} {entry : String} {d : String × String}
    (h : declaration? entry = some d) :
    tagKinds (entries ++ [entry]) = declare (tagKinds entries) d := by
  cases hwords : Text.words entry with
  | nil => simp [declaration?, hwords] at h
  | cons tag more =>
    obtain rfl : (tag, declaredKind more) = d := by simpa [declaration?, hwords] using h
    rw [tagKinds, List.foldl_append, ← tagKinds, List.foldl_cons, List.foldl_nil, hwords]
    have hentry : ∀ (e : String × List String) (kind : String),
        (if (e.1 == tag && !e.2.contains kind) = true then (e.1, e.2 ++ [kind])
          else (e.1, e.2)) = (e.1, withKind (tag, kind) e.1 e.2) := by
      intro e kind
      unfold withKind
      split
      · rfl
      · rfl
    cases more with
    | nil => simp only [declare, declaredKind, hentry]
    | cons kind more => simp only [declare, declaredKind, hentry]

theorem lookup_map_snd {β : Type} (f : String → β → β) (tag : String) (table : List (String × β)) :
    (table.map fun e => (e.1, f e.1 e.2)).lookup tag = (table.lookup tag).map (f tag) := by
  induction table with
  | nil => rfl
  | cons e rest ih =>
    rw [List.map_cons, Table.lookup_cons_eq, ih, ← Prod.eta e, Table.lookup_cons_eq]
    split
    · rename_i htag
      rw [htag]
      rfl
    · rfl

theorem lookup_eq_none_of_any {β : Type} {table : List (String × β)} {tag : String}
    (h : table.any (·.1 == tag) = false) : table.lookup tag = none := by
  rw [List.lookup_eq_none_iff]
  intro e he
  have hne := List.any_eq_false.1 h e he
  rw [beq_iff_eq] at hne
  exact bne_iff_ne.2 fun htag => hne htag.symm

@[simp]
theorem mem_withKind {d : String × String} {tag kind : String} {kinds : List String} :
    kind ∈ withKind d tag kinds ↔ kind ∈ kinds ∨ (tag, kind) = d := by
  rcases d with ⟨newTag, newKind⟩
  rw [Prod.mk.injEq, withKind]
  by_cases htag : tag = newTag
  · by_cases hkind : newKind ∈ kinds
    · have hadds : kind = newKind → kind ∈ kinds := fun h => h ▸ hkind
      simpa [htag, hkind] using hadds
    · simp [htag, hkind]
  · simp [htag]

@[simp]
theorem mem_kindsOf_declare {table : List (String × List String)} {d : String × String}
    {tag kind : String} :
    kind ∈ kindsOf (declare table d) tag ↔ kind ∈ kindsOf table tag ∨ (tag, kind) = d := by
  rw [kindsOf, kindsOf, declare]
  cases hknown : table.any (·.1 == d.1) with
  | true =>
    rw [if_pos rfl, lookup_map_snd]
    cases hlookup : table.lookup tag with
    | some kinds => exact mem_withKind
    | none =>
      -- The table has the tag of the declaration, which is therefore another one.
      have hne : tag ≠ d.1 := by
        rintro rfl
        rcases List.any_eq_true.1 hknown with ⟨e, he, htag⟩
        have hnone := List.lookup_eq_none_iff.1 hlookup e he
        rw [beq_iff_eq] at htag
        simp [htag] at hnone
      have hd : (tag, kind) ≠ d := fun h => hne (congrArg Prod.fst h)
      simp [hd]
  | false =>
    rw [if_neg Bool.false_ne_true, List.lookup_append, Table.lookup_cons_eq]
    by_cases htag : tag = d.1
    · have hpair : (tag, kind) = d ↔ kind = d.2 :=
        ⟨fun h => congrArg Prod.snd h, fun h => Prod.ext htag h⟩
      rw [hpair, htag, lookup_eq_none_of_any hknown]
      simp
    · have hd : (tag, kind) ≠ d := fun h => htag (congrArg Prod.fst h)
      simp [htag, hd]

/-- A kind is in the table for a tag exactly if an entry declares the tag for it. -/
@[simp]
theorem mem_tagKinds {entries : List String} {tag kind : String} :
    kind ∈ kindsOf (tagKinds entries) tag ↔ (tag, kind) ∈ declarations entries := by
  induction entries using List.reverseRecOn with
  | nil => simp [kindsOf, tagKinds, declarations]
  | append_singleton entries entry ih =>
    have hsplit : declarations (entries ++ [entry]) =
        declarations entries ++ (declaration? entry).toList := by
      rw [declarations, List.filterMap_append, declarations]
      cases hentry : declaration? entry with
      | none =>
        rw [List.filterMap_cons_none hentry]
        rfl
      | some d =>
        rw [List.filterMap_cons_some hentry]
        rfl
    rw [hsplit, List.mem_append, ← ih]
    cases hentry : declaration? entry with
    | none => simp [tagKinds_concat_of_none hentry]
    | some d => simp [tagKinds_concat_of_some hentry, mem_kindsOf_declare]

/-! ## Undeclared nodes -/

/-- What one function finds, another one that finds it as well finds in the same order. -/
theorem filterMap_sublist {α β : Type} {f g : α → Option β}
    (h : ∀ a b, f a = some b → g a = some b) (xs : List α) :
    (xs.filterMap f).Sublist (xs.filterMap g) := by
  induction xs with
  | nil => exact List.Sublist.slnil
  | cons x xs ih =>
    cases hf : f x with
    | some b =>
      rw [List.filterMap_cons_some hf, List.filterMap_cons_some (h x b hf)]
      exact ih.cons_cons b
    | none =>
      rw [List.filterMap_cons_none hf]
      exact ih.trans ((List.sublist_cons_self x xs).filterMap g)

/-- With more declarations, fewer nodes have a tag that is not declared for them. -/
theorem undeclared_sublist {entries more : List String}
    (h : ∀ d ∈ declarations entries, d ∈ declarations more) (nodes : List Node) :
    (undeclared (tagKinds more) nodes).Sublist (undeclared (tagKinds entries) nodes) := by
  refine filterMap_sublist ?_ nodes
  intro n found hfound
  cases htag : n.tag? with
  | none => simp [htag] at hfound
  | some tag =>
    simp only [htag, Option.ite_none_right_eq_some, Bool.and_eq_true, Bool.not_eq_true',
      List.contains_eq_mem, decide_eq_false_iff_not] at hfound ⊢
    rcases hfound with ⟨⟨hlocal, hnot⟩, hnode⟩
    refine ⟨⟨hlocal, ?_⟩, hnode⟩
    intro hdeclared
    exact hnot (mem_tagKinds.2 (h _ (mem_tagKinds.1 hdeclared)))

/-! ## Documents -/

namespace Document

def withTags (tags : List String) (d : Document) : Document :=
  { d with customTags := tags }

theorem ofComposed_withTags (tags tags' : List String) (c : Composed) (comments : List Comment) :
    ofComposed tags' c comments = (ofComposed tags c comments).map (withTags tags') := by
  unfold ofComposed
  cases hroot : c.root with
  | none => rfl
  | some n =>
    simp only
    cases Tree.ofNode (Attached.ofComments (some n) comments) n with
    | error f => rfl
    | ok root => rfl

theorem warnings_sublist {entries more : List String}
    (h : ∀ d ∈ declarations entries, d ∈ declarations more) (d : Document) :
    (d.withTags more).warnings.Sublist (d.withTags entries).warnings := by
  cases hroot : d.source.bind (·.composed.root) with
  | none => simp [warnings, withTags, hroot]
  | some root =>
    simp only [warnings, withTags, hroot]
    exact (undeclared_sublist h root.walk).map _

end Document

namespace DocumentSet

theorem convert_withTags (tags tags' : List String) (parts : List (Composed × List Comment)) :
    convert tags' parts = (convert tags parts).map (List.map (Document.withTags tags')) := by
  induction parts with
  | nil => rfl
  | cons part rest ih =>
    rcases part with ⟨c, comments⟩
    rw [convert, convert, ih, Document.ofComposed_withTags tags tags']
    cases Document.ofComposed tags c comments with
    | error f => rfl
    | ok d =>
      cases convert tags rest with
      | error f => rfl
      | ok more => rfl

def withTags (tags : List String) (set : DocumentSet) : DocumentSet :=
  { set with documents := set.documents.map (Document.withTags tags) }

/-- A text is read under any declared tags as under others, and only these differ. -/
theorem parse_withTags (source : String) (tags tags' : List String) :
    parse source tags' = (parse source tags).map (withTags tags') := by
  simp only [parse]
  split
  · rfl
  · rw [convert_withTags tags tags']
    cases convert tags _ with
    | error f => rfl
    | ok documents => rfl

theorem customTags_of_parse {source : String} {tags : List String} {set : DocumentSet}
    (h : parse source tags = .ok set) {d : Document} (hd : d ∈ set.documents) :
    d.withTags tags = d := by
  have hsame := parse_withTags source tags tags
  rw [h] at hsame
  rw [Except.ok.inj hsame] at hd
  rcases List.mem_map.1 hd with ⟨d', -, rfl⟩
  rfl

/-- The documents of a text under two lists of tags, side by side. -/
theorem forall₂_withTags {source : String} {tags : List String} {set : DocumentSet}
    (h : parse source tags = .ok set) (tags' : List String) {R : Document → Document → Prop}
    (hR : ∀ d : Document, R (d.withTags tags) (d.withTags tags')) :
    List.Forall₂ R set.documents (set.withTags tags').documents := by
  refine List.forall₂_map_right_iff.2 (List.forall₂_same.2 ?_)
  intro d hd
  have hrelated := hR d
  rwa [customTags_of_parse h hd] at hrelated

end DocumentSet

theorem Cache.answer_of_miss {c : Cache} {r : CacheRequest} (h : c.hit? r = none) :
    (c.get r).1 = DocumentSet.parse (requestedText r) r.customTags := by
  simp only [get, h]
  cases DocumentSet.parse (requestedText r) r.customTags with
  | error f => rfl
  | ok set => rfl

/-- What is kept after an answer is of no use under another list of tags, so that the text is parsed
again. -/
theorem Cache.get_of_other_tags {c : Cache} {r : CacheRequest} {kept : DocumentSet}
    (hkept : (c.get r).1 = .ok kept) {tags : List String} (htags : tags ≠ r.customTags) :
    (c.get r).2.hit? { r with customTags := tags } = none ∧
      ((c.get r).2.get { r with customTags := tags }).1 =
        DocumentSet.parse (requestedText r) tags := by
  have hentry : ∃ e, (c.get r).2.find? r.uri = some e ∧ e.customTags = r.customTags := by
    rcases get_cases c r with ⟨e, hfind, -, hsame, hget⟩ | ⟨f, -, hget⟩ | ⟨set, -, hget⟩
    · exact ⟨e, by rw [hget]; exact hfind, hsame⟩
    · rw [hget] at hkept
      cases hkept
    · exact ⟨⟨r.version, r.customTags, set⟩, by simp [hget], rfl⟩
  rcases hentry with ⟨e, hfind, hsame⟩
  have hmiss : (c.get r).2.hit? { r with customTags := tags } = none := by
    simp [hit?, hfind, hsame, htags.symm]
  exact ⟨hmiss, answer_of_miss hmiss⟩

namespace DocumentSet

/-- What the declared tags do to the documents of a text. If all that `entries` declare is declared
by `more`, the text is read under `more` as well, with the same trees and errors, and the warnings
of each document are those under `entries` with some left out. Entries in another order or another
number give the same warnings; only the cache takes them for others and parses the text again. -/
theorem warnings_of_declared {source : String} {entries more : List String} {set : DocumentSet}
    (hparse : parse source entries = .ok set)
    (hmore : ∀ d ∈ declarations entries, d ∈ declarations more) :
    (∃ set', parse source more = .ok set' ∧
        List.Forall₂ (fun d d' => d'.root = d.root ∧ d'.errors = d.errors ∧
          d'.warnings.Sublist d.warnings) set.documents set'.documents) ∧
      ∀ others, (∀ entry, entry ∈ others ↔ entry ∈ entries) →
        (∃ set', parse source others = .ok set' ∧
          List.Forall₂ (fun d d' => d'.root = d.root ∧ d'.errors = d.errors ∧
            d'.warnings = d.warnings) set.documents set'.documents) ∧
        (others ≠ entries → ∀ (c : Cache) (r : CacheRequest) (kept : DocumentSet),
          r.customTags = entries → (c.get r).1 = .ok kept →
          (c.get r).2.hit? { r with customTags := others } = none ∧
            ((c.get r).2.get { r with customTags := others }).1 =
              parse (Cache.requestedText r) others) := by
  have hread : ∀ tags, parse source tags = .ok (set.withTags tags) := by
    intro tags
    rw [parse_withTags source entries tags, hparse]
    rfl
  refine ⟨⟨_, hread more, forall₂_withTags hparse more ?_⟩, ?_⟩
  · intro d
    exact ⟨rfl, rfl, d.warnings_sublist hmore⟩
  · intro others hothers
    -- The same entries make the same declarations, so that neither list leaves out a warning.
    have hsame : ∀ d, d ∈ declarations others ↔ d ∈ declarations entries := by
      intro d
      simp only [declarations, List.mem_filterMap, hothers]
    refine ⟨⟨_, hread others, forall₂_withTags hparse others ?_⟩, ?_⟩
    · intro d
      have hfewer := d.warnings_sublist fun e he => (hsame e).2 he
      have hmore := d.warnings_sublist fun e he => (hsame e).1 he
      exact ⟨rfl, rfl, hfewer.eq_of_length_le hmore.length_le⟩
    · rintro hne c r kept rfl hkept
      exact Cache.get_of_other_tags hkept hne

def taggedText : String :=
  "a: !x 1\nb: !y [2]\n"

def firstTag : List String :=
  ["!x"]

def bothTags : List String :=
  ["!y Sequence", " ", "!x  SCALAR"]

/-- The warning about the second tag goes when it is declared; the first entry twice changes
nothing. -/
theorem warnings_of_declared_taggedText :
    (∀ d ∈ declarations firstTag, d ∈ declarations bothTags) ∧
      ∃ set set' set'', parse taggedText firstTag = .ok set ∧
        parse taggedText bothTags = .ok set' ∧ parse taggedText ["!x", "!x"] = .ok set'' ∧
        set.documents.map (fun d => d.warnings.map (·.message)) = [["Unresolved tag: !y"]] ∧
        set'.documents.map (fun d => d.warnings.map (·.message)) = [[]] ∧
        List.Forall₂ (fun d d' => d'.root = d.root ∧ d'.errors = d.errors ∧
          d'.warnings.Sublist d.warnings) set.documents set'.documents ∧
        List.Forall₂ (fun d d' => d'.root = d.root ∧ d'.errors = d.errors ∧
          d'.warnings = d.warnings) set.documents set''.documents := by
  have hdeclared : ∀ d ∈ declarations firstTag, d ∈ declarations bothTags := by decide
  have hread : (do
      let set ← (parse taggedText firstTag).toOption
      let set' ← (parse taggedText bothTags).toOption
      return (set.documents.map (fun d => d.warnings.map (·.message)),
        set'.documents.map (fun d => d.warnings.map (·.message)))) =
      some ([["Unresolved tag: !y"]], [[]]) := by
    decide +kernel
  simp only [Option.bind_eq_bind, Option.bind_eq_some_iff, Option.pure_def, Option.some.injEq,
    Prod.mk.injEq, toOption_eq_some] at hread
  rcases hread with ⟨set, hparse, set', hparse', hfirst, hboth⟩
  rcases warnings_of_declared hparse hdeclared with ⟨⟨_, hmore, hfewer⟩, hothers⟩
  cases hparse'.symm.trans hmore
  rcases (hothers ["!x", "!x"] (by simp [firstTag])).1 with ⟨set'', hagain, hsame⟩
  exact ⟨hdeclared, set, set', set'', hparse, hparse', hagain, hfirst, hboth, hfewer, hsame⟩

end DocumentSet
end YamlServer
