import Mathlib.Data.List.Induction
import YamlServer.Document.Cache
import YamlServer.Proofs.Table

/-!
# What the cache answers

A parse is kept for the request it was made for: its address, its version, its declared tags and its
text. Another request of the same address, version and tags gets it as well. If a version has one
text only, this is what the request asks for, unless the text is blank: whether blank text stands
for an empty map is not compared.

* `CacheCall`, `Cache.after`: the cache after any calls.
* `Cache.get_after`: the answer to a request after any calls.
-/

namespace YamlServer

/-- A set of documents knows the text it was read from. -/
theorem DocumentSet.source_of_parse {source : String} {customTags : List String}
    {set : DocumentSet} (h : DocumentSet.parse source customTags = .ok set) :
    set.source = source := by
  unfold DocumentSet.parse at h
  dsimp only at h
  split at h
  · cases h
  · split at h
    · cases h
    · cases h
      rfl

/-- An entry was made by parsing what a request asks for. -/
structure CacheEntry.MadeFor (e : CacheEntry) (r : CacheRequest) : Prop where
  version : e.version = r.version
  customTags : e.customTags = r.customTags
  documents : DocumentSet.parse (Cache.requestedText r) r.customTags = .ok e.documents

namespace Cache

/-! ## Entries -/

theorem put_eq (uri : String) (e : CacheEntry) (entries : List (String × CacheEntry)) :
    put uri e entries = Table.put uri e entries := by
  induction entries with
  | nil => rfl
  | cons entry rest ih => rw [put, Table.put, ih]

@[simp]
theorem find?_put (c : Cache) (uri other : String) (e : CacheEntry) :
    find? ⟨put uri e c.entries⟩ other = if other = uri then some e else c.find? other := by
  rw [find?, put_eq, Table.lookup_put]
  rfl

@[simp]
theorem find?_forget (c : Cache) (uri other : String) :
    (c.forget uri).find? other = if other = uri then none else c.find? other :=
  Table.lookup_erase uri other c.entries

theorem hit?_eq_some {c : Cache} {r : CacheRequest} {set : DocumentSet} (h : c.hit? r = some set) :
    ∃ e, c.find? r.uri = some e ∧ e.version = r.version ∧ e.customTags = r.customTags ∧
      e.documents = set := by
  cases hfind : c.find? r.uri with
  | none => simp [hit?, hfind] at h
  | some e =>
    simp only [hit?, hfind, Option.ite_none_right_eq_some, Bool.and_eq_true, beq_iff_eq,
      Option.some.injEq] at h
    exact ⟨e, rfl, h.1.1, h.1.2, h.2⟩

/-- What a request does: it is answered from what is kept and changes nothing, or its text is
parsed, and the result is kept if there is one. -/
theorem get_cases (c : Cache) (r : CacheRequest) :
    (∃ e, c.find? r.uri = some e ∧ e.version = r.version ∧ e.customTags = r.customTags ∧
        c.get r = (.ok e.documents, c)) ∨
      (∃ f, DocumentSet.parse (requestedText r) r.customTags = .error f ∧
        c.get r = (.error f, c)) ∨
      ∃ set, DocumentSet.parse (requestedText r) r.customTags = .ok set ∧
        c.get r = (.ok set, ⟨put r.uri ⟨r.version, r.customTags, set⟩ c.entries⟩) := by
  cases hhit : c.hit? r with
  | some set =>
    rcases hit?_eq_some hhit with ⟨e, hfind, hversion, htags, rfl⟩
    exact Or.inl ⟨e, hfind, hversion, htags, by simp [get, hhit]⟩
  | none =>
    refine Or.inr ?_
    cases hparse : DocumentSet.parse (requestedText r) r.customTags with
    | error f => exact Or.inl ⟨f, rfl, by simp [get, hhit, hparse]⟩
    | ok set => exact Or.inr ⟨set, rfl, by simp [get, hhit, hparse]⟩

/-- A request fails only if its text cannot be parsed. -/
theorem parse_of_get_error {c : Cache} {r : CacheRequest} {f : ReadFailure}
    (h : (c.get r).1 = .error f) : DocumentSet.parse (requestedText r) r.customTags = .error f := by
  rcases get_cases c r with ⟨e, -, -, -, hget⟩ | ⟨f', hparse, hget⟩ | ⟨set, -, hget⟩
  · rw [hget] at h
    cases h
  · rw [hget] at h
    cases h
    exact hparse
  · rw [hget] at h
    cases h

/-- Other addresses keep what is kept for them. -/
theorem find?_get_of_ne (c : Cache) {r : CacheRequest} {uri : String} (h : uri ≠ r.uri) :
    (c.get r).2.find? uri = c.find? uri := by
  rcases get_cases c r with ⟨e, -, -, -, hget⟩ | ⟨f, -, hget⟩ | ⟨set, -, hget⟩
  · rw [hget]
  · rw [hget]
  · rw [hget, find?_put, if_neg h]

/-! ## Blank text -/

theorem requestedText_of_not_blank {r : CacheRequest} (h : Text.allBlank r.source.toList = false) :
    requestedText r = r.source := by
  simp [requestedText, h]

def flipped (r : CacheRequest) : CacheRequest :=
  { r with addRoot := !r.addRoot }

theorem requestedText_flipped_of_not_blank {r : CacheRequest}
    (h : Text.allBlank r.source.toList = false) : requestedText (flipped r) = requestedText r := by
  have hflipped : Text.allBlank (flipped r).source.toList = false := h
  rw [requestedText_of_not_blank h, requestedText_of_not_blank hflipped]
  rfl

/-- Blank text between braces is longer than without them. -/
theorem requestedText_flipped_ne {r : CacheRequest} (h : Text.allBlank r.source.toList = true) :
    requestedText (flipped r) ≠ requestedText r := by
  intro heq
  have hlength := congrArg String.length heq
  have hopen : "\x7b".length = 1 := rfl
  cases hroot : r.addRoot with
  | false =>
    simp [requestedText, flipped, h, hroot, String.length_append] at hlength
    omega
  | true =>
    simp [requestedText, flipped, h, hroot, String.length_append] at hlength
    omega

/-- Blank text apart, a request is fixed by its address, version, tags and text. -/
theorem eq_or_eq_flipped {r r' : CacheRequest} (huri : r'.uri = r.uri)
    (hversion : r'.version = r.version) (hsource : r'.source = r.source)
    (htags : r'.customTags = r.customTags) : r' = r ∨ r' = flipped r := by
  rcases r with ⟨uri, version, source, tags, root⟩
  rcases r' with ⟨uri', version', source', tags', root'⟩
  dsimp only at huri hversion hsource htags
  subst huri hversion hsource htags
  cases root <;> cases root' <;> simp [flipped]

/-! ## Requests -/

/-- Every entry was made for a request of its address with the property `P`. -/
def Records (P : CacheRequest → Prop) (c : Cache) : Prop :=
  ∀ uri e, c.find? uri = some e → ∃ r, P r ∧ r.uri = uri ∧ e.MadeFor r

namespace Records

variable {P Q : CacheRequest → Prop} {c : Cache}

theorem empty : Cache.empty.Records P := by
  intro uri e h
  cases h

theorem mono (h : c.Records P) (hPQ : ∀ r, P r → Q r) : c.Records Q := by
  intro uri e he
  rcases h uri e he with ⟨r, hr, huri, hmade⟩
  exact ⟨r, hPQ r hr, huri, hmade⟩

theorem forget (h : c.Records P) (uri : String) :
    (c.forget uri).Records fun r => P r ∧ r.uri ≠ uri := by
  intro other e he
  rw [find?_forget] at he
  by_cases hother : other = uri
  · simp [hother] at he
  · rw [if_neg hother] at he
    rcases h other e he with ⟨r, hr, rfl, hmade⟩
    exact ⟨r, ⟨hr, hother⟩, rfl, hmade⟩

theorem get {r : CacheRequest} (h : c.Records P) (hr : P r) : (c.get r).2.Records P := by
  rcases get_cases c r with ⟨e, -, -, -, hget⟩ | ⟨f, -, hget⟩ | ⟨set, hparse, hget⟩
  · rw [hget]
    exact h
  · rw [hget]
    exact h
  · rw [hget]
    intro uri e he
    rw [find?_put] at he
    by_cases huri : uri = r.uri
    · rw [if_pos huri] at he
      cases he
      exact ⟨r, hr, huri.symm, rfl, rfl, hparse⟩
    · rw [if_neg huri] at he
      exact h uri e he

/-- A request is answered what it asks for, or what a request of the same address, version and tags
asked for before. -/
theorem answer {r : CacheRequest} {set : DocumentSet} (h : c.Records P)
    (hset : (c.get r).1 = .ok set) :
    ∃ r', (r' = r ∨ P r') ∧ r'.uri = r.uri ∧ r'.version = r.version ∧
      r'.customTags = r.customTags ∧
      DocumentSet.parse (requestedText r') r.customTags = .ok set := by
  rcases get_cases c r with ⟨e, hfind, hversion, htags, hget⟩ | ⟨f, -, hget⟩ | ⟨set', hparse, hget⟩
  · rw [hget] at hset
    cases hset
    rcases h r.uri e hfind with ⟨r', hr', huri, hmade⟩
    refine ⟨r', Or.inr hr', huri, hmade.version.symm.trans hversion,
      hmade.customTags.symm.trans htags, ?_⟩
    rw [← htags, hmade.customTags]
    exact hmade.documents
  · rw [hget] at hset
    cases hset
  · rw [hget] at hset
    cases hset
    exact ⟨r, Or.inl rfl, rfl, rfl, rfl, hparse⟩

/-- If a version has one text, a request is answered what it asks for, or else blank text that was
taken the other way. -/
theorem answer_cases {r : CacheRequest} {set : DocumentSet} (h : c.Records P)
    (hagree : ∀ r', P r' → r'.uri = r.uri → r'.version = r.version → r'.source = r.source)
    (hset : (c.get r).1 = .ok set) :
    DocumentSet.parse (requestedText r) r.customTags = .ok set ∨
      Text.allBlank r.source.toList = true ∧ P (flipped r) ∧
        DocumentSet.parse (requestedText (flipped r)) r.customTags = .ok set ∧
        DocumentSet.parse (requestedText r) r.customTags ≠ .ok set := by
  rcases h.answer hset with ⟨r', hr', huri, hversion, htags, hparse⟩
  have hsource : r'.source = r.source := by
    rcases hr' with rfl | hr'
    · rfl
    · exact hagree r' hr' huri hversion
  rcases eq_or_eq_flipped huri hversion hsource htags with rfl | rfl
  · exact Or.inl hparse
  · cases hblank : Text.allBlank r.source.toList with
    | false =>
      rw [requestedText_flipped_of_not_blank hblank] at hparse
      exact Or.inl hparse
    | true =>
      have hne := requestedText_flipped_ne hblank
      have hmem : P (flipped r) := by
        rcases hr' with heq | hmem
        · exact absurd (congrArg requestedText heq) hne
        · exact hmem
      refine Or.inr ⟨rfl, hmem, hparse, ?_⟩
      -- The documents know their text, so they are not those of the other one.
      intro hfresh
      have hsame := DocumentSet.source_of_parse hparse
      rw [DocumentSet.source_of_parse hfresh] at hsame
      exact hne hsame.symm

/-- Text that is not blank is answered as if it were parsed afresh. -/
theorem get_eq_parse {r : CacheRequest} (h : c.Records P)
    (hagree : ∀ r', P r' → r'.uri = r.uri → r'.version = r.version → r'.source = r.source)
    (hblank : Text.allBlank r.source.toList = false) :
    (c.get r).1 = DocumentSet.parse (requestedText r) r.customTags := by
  cases hanswer : (c.get r).1 with
  | error f => exact (parse_of_get_error hanswer).symm
  | ok set =>
    rcases h.answer_cases hagree hanswer with hfresh | ⟨hblank', -⟩
    · exact hfresh.symm
    · rw [hblank] at hblank'
      cases hblank'

end Records

/-! ## Calls -/

end Cache

/-- A call on the cache. -/
inductive CacheCall where
  | get (r : CacheRequest)
  | forget (uri : String)
  | clear
deriving Repr, DecidableEq

namespace Cache

def call (c : Cache) : CacheCall → Cache
  | .get r => (c.get r).2
  | .forget uri => c.forget uri
  | .clear => .empty

def after (calls : List CacheCall) : Cache :=
  calls.foldl call .empty

/-- In all requests of an address, a version has the same text. -/
def Consistent (calls : List CacheCall) : Prop :=
  ∀ r r', .get r ∈ calls → .get r' ∈ calls → r.uri = r'.uri → r.version = r'.version →
    r.source = r'.source

/-- A call keeps what is recorded, and records its own request. -/
theorem Records.call {c : Cache} {calls : List CacheCall} (h : c.Records (.get · ∈ calls))
    (x : CacheCall) : (c.call x).Records (.get · ∈ calls ++ [x]) := by
  have hmore : c.Records (.get · ∈ calls ++ [x]) :=
    h.mono fun r hr => List.mem_append_left _ hr
  cases x with
  | get r => exact hmore.get (by simp)
  | forget uri => exact (hmore.forget uri).mono fun r hr => hr.1
  | clear => exact Records.empty

/-- Whatever is kept after calls was made for one of them. -/
theorem records_after (calls : List CacheCall) : (after calls).Records (.get · ∈ calls) := by
  induction calls using List.reverseRecOn with
  | nil => exact Records.empty
  | append_singleton calls x ih =>
    rw [after, List.foldl_append]
    exact ih.call x

/-- A request after any calls in which a version has one text is answered as if its text were parsed
afresh. The exception is blank text that an earlier call took the other way: then the parse of that
call is the answer. No entry of another address changes. -/
theorem get_after {earlier : List CacheCall} {r : CacheRequest}
    (h : Consistent (earlier ++ [.get r])) :
    (∀ set, ((after earlier).get r).1 = .ok set →
      DocumentSet.parse (requestedText r) r.customTags = .ok set ∨
        Text.allBlank r.source.toList = true ∧ .get (flipped r) ∈ earlier ∧
          DocumentSet.parse (requestedText (flipped r)) r.customTags = .ok set ∧
          DocumentSet.parse (requestedText r) r.customTags ≠ .ok set) ∧
      (∀ f, ((after earlier).get r).1 = .error f →
        DocumentSet.parse (requestedText r) r.customTags = .error f) ∧
      ∀ uri, uri ≠ r.uri → ((after earlier).get r).2.find? uri = (after earlier).find? uri := by
  refine ⟨?_, fun f hf => parse_of_get_error hf, fun uri huri => find?_get_of_ne _ huri⟩
  intro set hset
  refine (records_after earlier).answer_cases ?_ hset
  intro r' hr' huri hversion
  exact h r' r (List.mem_append_left _ hr') (by simp) huri hversion

/-! ## Two requests that differ in blank text only -/

theorem consistent_flipped (r : CacheRequest) : Consistent ([.get r] ++ [.get (flipped r)]) := by
  intro q q' hq hq' _ _
  simp only [List.cons_append, List.nil_append, List.mem_cons, List.not_mem_nil, or_false,
    CacheCall.get.injEq] at hq hq'
  rcases hq with rfl | rfl <;> rcases hq' with rfl | rfl <;> rfl

/-- The second request is answered what the first one asked for. -/
theorem get_flipped_after {r : CacheRequest} {set : DocumentSet}
    (h : DocumentSet.parse (requestedText r) r.customTags = .ok set) :
    ((after [.get r]).get (flipped r)).1 = .ok set := by
  have hmiss : Cache.empty.hit? r = none := rfl
  have hget : Cache.empty.get r = (.ok set, ⟨[(r.uri, ⟨r.version, r.customTags, set⟩)]⟩) := by
    rw [get, hmiss, h]
    rfl
  have hkept : after [.get r] = ⟨[(r.uri, ⟨r.version, r.customTags, set⟩)]⟩ :=
    congrArg Prod.snd hget
  simp [hkept, get, hit?, find?, flipped]

def wordRequest : CacheRequest :=
  ⟨"a.yaml", some 1, "k: v\n", ["!Ref"], false⟩

theorem get_after_wordRequest :
    Consistent ([.get wordRequest] ++ [.get (flipped wordRequest)]) ∧
      ∃ set, ((after [.get wordRequest]).get (flipped wordRequest)).1 = .ok set ∧
        DocumentSet.parse (requestedText (flipped wordRequest)) ["!Ref"] = .ok set := by
  have hread : (DocumentSet.parse (requestedText wordRequest) ["!Ref"]).toOption.isSome = true := by
    decide +kernel
  refine ⟨consistent_flipped wordRequest, ?_⟩
  cases hparse : DocumentSet.parse (requestedText wordRequest) ["!Ref"] with
  | error f =>
      rw [hparse] at hread
      cases hread
  | ok set =>
      have hset := get_flipped_after hparse
      refine ⟨set, hset, ?_⟩
      rcases (get_after (consistent_flipped wordRequest)).1 set hset with hfresh | ⟨hblank, -⟩
      · exact hfresh
      · have hword : Text.allBlank (flipped wordRequest).source.toList = false := by decide
        rw [hword] at hblank
        cases hblank

def blankRequest : CacheRequest :=
  ⟨"a.yaml", some 1, "  \n", [], false⟩

/-- Blank text that is to stand for an empty map is answered without one if it was parsed so
before. -/
theorem get_after_blankRequest :
    Consistent ([.get blankRequest] ++ [.get (flipped blankRequest)]) ∧
      ∃ set, ((after [.get blankRequest]).get (flipped blankRequest)).1 = .ok set ∧
        DocumentSet.parse (requestedText (flipped blankRequest)) [] ≠ .ok set := by
  have hread : (DocumentSet.parse (requestedText blankRequest) []).toOption.isSome = true := by
    decide +kernel
  refine ⟨consistent_flipped blankRequest, ?_⟩
  cases hparse : DocumentSet.parse (requestedText blankRequest) [] with
  | error f =>
      rw [hparse] at hread
      cases hread
  | ok set =>
      refine ⟨set, get_flipped_after hparse, ?_⟩
      intro hfresh
      have hsame := DocumentSet.source_of_parse hparse
      rw [DocumentSet.source_of_parse hfresh] at hsame
      exact requestedText_flipped_ne (by decide) hsame

end Cache
end YamlServer
