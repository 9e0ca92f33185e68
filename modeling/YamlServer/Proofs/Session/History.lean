import Mathlib.Data.List.Induction
import YamlServer.Proofs.Session.Frame

/-!
# Diagnostics after any history

A server answers from parses that it has kept. If a version of a text always comes with the same
text while it is open, this cannot be told from a server that keeps nothing: the diagnostics are
those of the current text, settings and graph.

* `Message`, `Session.run`: messages, and the state that they lead to. A message that fails counts
  with what it did before it failed.
* `Session.diagnostics_run`: diagnostics do not depend on the history.
-/

namespace YamlServer

/-- A message to a server; those that look at files come with the files of the moment. -/
inductive Message where
  | configure (fs : Files) (overrides : Value)
  | openWorkspace (fs : Files) (rootUri : Option String) (options : Value)
  | changeConfiguration (fs : Files) (payload : Value)
  | openText (uri : String) (t : OpenText)
  | changeText (uri : String) (version : Option Int) (texts : List String)
  | closeText (uri : String)
  | resolveNode (uri : String) (line column : Int)

namespace Message

def brings? : Message → Option (String × OpenText)
  | .openText uri t => some (uri, t)
  | .changeText uri version texts => texts.getLast?.map fun text => (uri, ⟨version, text⟩)
  | _ => none

/-- A text came for an address, which was not closed since. -/
def Noticed (ms : List Message) (uri : String) (t : OpenText) : Prop :=
  ∃ before m between, ms = before ++ m :: between ∧ m.brings? = some (uri, t) ∧
    .closeText uri ∉ between

/-- Between two closes of an address, texts of one version are the same. -/
def Versioned (ms : List Message) : Prop :=
  ∀ before m between m' later uri t t', ms = before ++ m :: between ++ m' :: later →
    m.brings? = some (uri, t) → m'.brings? = some (uri, t') → .closeText uri ∉ between →
    t.version = t'.version → t.text = t'.text

variable {ms : List Message} {m : Message} {uri : String} {t t' : OpenText}

theorem not_noticed_nil : ¬ Noticed [] uri t := by
  rintro ⟨before, m, between, hms, -, -⟩
  simp at hms

@[simp]
theorem noticed_concat :
    Noticed (ms ++ [m]) uri t ↔
      m.brings? = some (uri, t) ∨ Noticed ms uri t ∧ m ≠ .closeText uri := by
  constructor
  · rintro ⟨before, m', between, hms, hbrings, hopen⟩
    -- The message that brings the text is the last one, or it stands before the last one.
    rcases List.eq_nil_or_concat between with rfl | ⟨between, last, rfl⟩
    · rcases List.append_inj' hms rfl with ⟨-, hlast⟩
      cases hlast
      exact Or.inl hbrings
    · rw [List.concat_eq_append, ← List.cons_append, ← List.append_assoc] at hms
      rcases List.append_inj' hms rfl with ⟨hinit, hlast⟩
      cases hlast
      simp only [List.concat_eq_append, List.mem_append, List.mem_singleton, not_or] at hopen
      exact Or.inr ⟨⟨before, m', between, hinit, hbrings, hopen.1⟩, Ne.symm hopen.2⟩
  · rintro (hbrings | ⟨⟨before, m', between, rfl, hbrings, hopen⟩, hm⟩)
    · exact ⟨ms, m, [], rfl, hbrings, List.not_mem_nil⟩
    · refine ⟨before, m', between ++ [m], by simp, hbrings, ?_⟩
      simp only [List.mem_append, List.mem_singleton, not_or]
      exact ⟨hopen, Ne.symm hm⟩

namespace Versioned

theorem nil : Versioned [] := by
  intro before m between m' later uri t t' hms
  simp at hms

theorem init (h : Versioned (ms ++ [m])) : Versioned ms := by
  intro before m₁ between m₂ later uri t t' hms
  refine h before m₁ between m₂ (later ++ [m]) uri t t' ?_
  simp [hms]

/-- A text that comes agrees with those noticed before it. -/
theorem text_eq_of_brings (h : Versioned (ms ++ [m])) (ht : Noticed ms uri t)
    (ht' : m.brings? = some (uri, t')) (hversion : t.version = t'.version) :
    t.text = t'.text := by
  rcases ht with ⟨before, m₁, between, rfl, hbrings, hopen⟩
  exact h before m₁ between m [] uri t t' rfl hbrings ht' hopen hversion

/-- Noticed texts of one version are the same. -/
theorem text_eq (h : Versioned ms) (ht : Noticed ms uri t) (ht' : Noticed ms uri t')
    (hversion : t.version = t'.version) : t.text = t'.text := by
  induction ms using List.reverseRecOn with
  | nil => exact absurd ht not_noticed_nil
  | append_singleton ms m ih =>
    rcases noticed_concat.1 ht with hnew | ⟨hold, -⟩
    · rcases noticed_concat.1 ht' with hnew' | ⟨hold', -⟩
      · rw [hnew] at hnew'
        cases hnew'
        rfl
      · exact (h.text_eq_of_brings hold' hnew hversion.symm).symm
    · rcases noticed_concat.1 ht' with hnew' | ⟨hold', -⟩
      · exact h.text_eq_of_brings hold hnew' hversion
      · exact ih h.init hold hold'

theorem concat (h : Versioned ms)
    (hm : ∀ uri t t', Noticed ms uri t → m.brings? = some (uri, t') → t.version = t'.version →
      t.text = t'.text) : Versioned (ms ++ [m]) := by
  intro before m₁ between m₂ later uri t t' hms hbrings hbrings' hopen hversion
  rcases List.eq_nil_or_concat later with rfl | ⟨later, last, rfl⟩
  · rcases List.append_inj' hms rfl with ⟨hinit, hlast⟩
    cases hlast
    exact hm uri t t' ⟨before, m₁, between, hinit, hbrings, hopen⟩ hbrings' hversion
  · rw [List.concat_eq_append, ← List.cons_append, ← List.append_assoc] at hms
    rcases List.append_inj' hms rfl with ⟨hinit, -⟩
    exact h before m₁ between m₂ later uri t t' hinit hbrings hbrings' hopen hversion

/-- After a close, a text may come with any version. -/
theorem reopen (h : Versioned ms) (uri : String) (t : OpenText) :
    Versioned (ms ++ [.closeText uri] ++ [.openText uri t]) := by
  refine concat (concat h ?_) ?_
  · intro u t₁ t₂ _ hbrings
    cases hbrings
  · intro u t₁ t₂ hnoticed hbrings
    cases hbrings
    rcases noticed_concat.1 hnoticed with hnone | ⟨-, hclose⟩
    · cases hnone
    · exact absurd rfl hclose

end Versioned
end Message

namespace Session

/-! ## Runs -/

def receive (s : Session) : Message → Session
  | .configure fs overrides => (s.configure fs overrides).session
  | .openWorkspace fs rootUri options => (s.openWorkspace fs rootUri options).session
  | .changeConfiguration fs payload => (s.changeConfiguration fs payload).session
  | .openText uri t => (s.openText uri t).session
  | .changeText uri version texts => (s.changeText uri version texts).session
  | .closeText uri => (s.closeText uri).session
  | .resolveNode uri line column => (s.resolveNode uri line column).session

def run (ms : List Message) : Session :=
  ms.foldl receive start

@[simp]
theorem run_concat (ms : List Message) (m : Message) : run (ms ++ [m]) = (run ms).receive m := by
  simp [run]

theorem putText_eq (uri : String) (t : OpenText) (texts : List (String × OpenText)) :
    putText uri t texts = Table.put uri t texts := by
  induction texts with
  | nil => rfl
  | cons entry rest ih => simp [putText, Table.put, ih]

/-! ## What is open and what is kept -/

/-- Open texts are among those of `N`, and parses are kept of open texts only, for texts of `N`. -/
structure Sound (N : String → OpenText → Prop) (s : Session) : Prop where
  validator : s.validator = Graph.validate
  current : ∀ uri t, s.texts.lookup uri = some t → N uri t
  opened : ∀ uri e, s.cache.find? uri = some e → ∃ t, s.texts.lookup uri = some t
  records : s.cache.Records fun r => N r.uri ⟨r.version, r.source⟩

namespace Sound

variable {N N' : String → OpenText → Prop} {s s' : Session}

theorem start : Sound N start := by
  refine ⟨rfl, ?_, ?_, Cache.Records.empty⟩
  · intro uri t h
    cases h
  · intro uri e h
    cases h

theorem mono (h : Sound N s) (hN : ∀ uri t, N uri t → N' uri t) : Sound N' s :=
  ⟨h.validator, fun uri t ht => hN uri t (h.current uri t ht), h.opened,
    h.records.mono fun _ hr => hN _ _ hr⟩

theorem sameTexts (h : Sound N s) (hs : SameTexts s s') : Sound N s' := by
  refine ⟨hs.validator.trans h.validator, ?_, ?_, ?_⟩
  · rw [hs.texts]
    exact h.current
  · rw [hs.texts, hs.cache]
    exact h.opened
  · rw [hs.cache]
    exact h.records

theorem parsed (h : Sound N s) (uri : String) : Sound N (s.parsed uri).session := by
  cases hopen : s.texts.lookup uri with
  | none =>
    rw [parsed_of_closed hopen]
    exact h
  | some t =>
    rw [parsed_of_open hopen]
    refine ⟨h.validator, h.current, ?_, h.records.get (h.current uri t hopen)⟩
    intro other e he
    by_cases hother : other = uri
    · exact ⟨t, by rw [hother]; exact hopen⟩
    · exact h.opened other e ((Cache.find?_get_of_ne s.cache hother).symm.trans he)

theorem republish (h : Sound N s) (uris : List String) : Sound N (s.republish uris).session := by
  rw [session_republish]
  induction uris generalizing s with
  | nil => exact h
  | cons uri rest ih => exact ih (h.parsed uri)

theorem changeConfiguration (h : Sound N s) (fs : Files) (payload : Value) :
    Sound N (s.changeConfiguration fs payload).session := by
  cases hnew : s.settings.configured? fs.homes payload with
  | error f =>
    rw [Session.changeConfiguration, hnew]
    exact h
  | ok new =>
    rcases session_changeConfiguration hnew with ⟨uris, hsession⟩
    rw [hsession]
    exact (h.sameTexts (sameTexts_apply fs _ s)).republish uris

theorem openText (h : Sound N s) {uri : String} {t : OpenText} (ht : N uri t) :
    Sound N (s.openText uri t).session := by
  have hput : Sound N { s with texts := putText uri t s.texts } := by
    refine ⟨h.validator, ?_, ?_, h.records⟩
    · intro other t' ht'
      rw [putText_eq, Table.lookup_put] at ht'
      by_cases hother : other = uri
      · rw [if_pos hother] at ht'
        cases ht'
        rw [hother]
        exact ht
      · rw [if_neg hother] at ht'
        exact h.current other t' ht'
    · intro other e he
      rw [putText_eq, Table.lookup_put]
      by_cases hother : other = uri
      · exact ⟨t, if_pos hother⟩
      · rw [if_neg hother]
        exact h.opened other e he
  rw [Session.openText, session_publish]
  exact hput.parsed uri

/-- Nothing of a text stays when it is closed. -/
theorem closeText (h : Sound N s) (uri : String) :
    Sound (fun other t => N other t ∧ other ≠ uri) (s.closeText uri).session := by
  refine ⟨h.validator, ?_, ?_, h.records.forget uri⟩
  · intro other t ht
    rw [Session.closeText, Table.lookup_erase] at ht
    by_cases hother : other = uri
    · simp [hother] at ht
    · rw [if_neg hother] at ht
      exact ⟨h.current other t ht, hother⟩
  · intro other e he
    rw [Session.closeText] at he ⊢
    rw [Cache.find?_forget] at he
    rw [Table.lookup_erase]
    by_cases hother : other = uri
    · simp [hother] at he
    · rw [if_neg hother] at he ⊢
      exact h.opened other e he

end Sound

theorem Sound.receive {ms : List Message} {s : Session} (h : Sound (Message.Noticed ms) s)
    (m : Message) : Sound (Message.Noticed (ms ++ [m])) (s.receive m) := by
  have hmore : (∀ uri, m ≠ .closeText uri) → Sound (Message.Noticed (ms ++ [m])) s := by
    intro hm
    exact h.mono fun uri t ht => Message.noticed_concat.2 (Or.inr ⟨ht, hm uri⟩)
  cases m with
  | configure fs overrides =>
    exact (hmore (by simp)).sameTexts (sameTexts_configure fs overrides s)
  | openWorkspace fs rootUri options =>
    exact (hmore (by simp)).sameTexts (sameTexts_openWorkspace fs rootUri options s)
  | changeConfiguration fs payload => exact (hmore (by simp)).changeConfiguration fs payload
  | openText uri t =>
    exact (hmore (by simp)).openText (Message.noticed_concat.2 (Or.inl rfl))
  | changeText uri version texts =>
    have hkept := hmore (by simp)
    rw [Session.receive, changeText]
    cases hlast : texts.getLast? with
    | none => exact hkept
    | some text =>
      have hbrings : (Message.changeText uri version texts).brings? =
          some (uri, ⟨version, text⟩) := by
        simp [Message.brings?, hlast]
      exact hkept.openText (Message.noticed_concat.2 (Or.inl hbrings))
  | closeText uri =>
    refine (h.closeText uri).mono ?_
    rintro other t ⟨ht, hother⟩
    refine Message.noticed_concat.2 (Or.inr ⟨ht, ?_⟩)
    simpa using Ne.symm hother
  | resolveNode uri line column =>
    rw [Session.receive, session_resolveNode]
    exact (hmore (by simp)).parsed uri

theorem sound_run (ms : List Message) : Sound (Message.Noticed ms) (run ms) := by
  induction ms using List.reverseRecOn with
  | nil => exact Sound.start
  | append_singleton ms m ih =>
    rw [run_concat]
    exact ih.receive m

/-! ## Diagnostics -/

def alone (uri : String) (t : OpenText) (settings : Settings) (graph : Option Graph) : Session :=
  { start with texts := [(uri, t)], settings, graph }

theorem sound_alone (uri : String) (t : OpenText) (settings : Settings) (graph : Option Graph) :
    Sound (fun other t' => other = uri ∧ t' = t) (alone uri t settings graph) := by
  refine ⟨rfl, ?_, ?_, Cache.Records.empty⟩
  · intro other t' ht'
    rw [alone, Table.lookup_cons_eq] at ht'
    by_cases hother : other = uri
    · rw [if_pos hother] at ht'
      cases ht'
      exact ⟨hother, rfl⟩
    · rw [if_neg hother] at ht'
      cases ht'
  · intro other e h
    cases h

namespace Sound

variable {N : String → OpenText → Prop} {s : Session} {uri : String} {t : OpenText}

/-- If a version has one text, an open text that is not blank is read as if nothing were kept. -/
theorem answer_parsed (h : Sound N s)
    (hagree : ∀ uri t t', N uri t → N uri t' → t.version = t'.version → t.text = t'.text)
    (hopen : s.texts.lookup uri = some t) (hblank : Text.allBlank t.text.toList = false) :
    (s.parsed uri).answer =
      ((DocumentSet.parse (Cache.requestedText (s.request uri t)) s.settings.customTags).map
        some).mapError SessionFault.read := by
  have hget := h.records.get_eq_parse (r := s.request uri t) ?_ hblank
  · rw [parsed_of_open hopen, hget]
    rfl
  · intro r hr huri hversion
    have hnoticed : N uri ⟨r.version, r.source⟩ := by
      rw [← show r.uri = uri from huri]
      exact hr
    exact hagree uri _ t hnoticed (h.current uri t hopen) hversion

theorem answer_diagnostics (h : Sound N s)
    (hagree : ∀ uri t t', N uri t → N uri t' → t.version = t'.version → t.text = t'.text)
    (hopen : s.texts.lookup uri = some t) (hblank : Text.allBlank t.text.toList = false) :
    (s.diagnostics uri).answer =
      ((alone uri t s.settings s.graph).diagnostics uri).answer := by
  have halone := sound_alone uri t s.settings s.graph
  refine answer_diagnostics_congr ?_ rfl rfl h.validator
  rw [h.answer_parsed hagree hopen hblank, halone.answer_parsed ?_ (by simp [alone]) hblank]
  · rfl
  · rintro _ _ _ ⟨-, rfl⟩ ⟨-, rfl⟩ _
    rfl

end Sound

/-- An opened text is the current one, and settings and graph stay. -/
theorem openText_session (uri : String) (t : OpenText) (s : Session) :
    (s.openText uri t).session.texts.lookup uri = some t ∧
      (s.openText uri t).session.settings = s.settings ∧
      (s.openText uri t).session.graph = s.graph := by
  rw [openText, session_publish, session_parsed]
  refine ⟨?_, rfl, rfl⟩
  simp [putText_eq]

/-- After any messages in which a version has one text between two closes, parses are kept of open
texts only, and the diagnostics of a text that is not blank are those of a server that has seen
nothing but this text, the settings and the graph. This holds also of a text that is closed and
opened again, whatever its version. -/
theorem diagnostics_run {ms : List Message} (h : Message.Versioned ms) :
    (∀ uri e, (run ms).cache.find? uri = some e → ∃ t, (run ms).texts.lookup uri = some t) ∧
      (∀ uri t, (run ms).texts.lookup uri = some t → Text.allBlank t.text.toList = false →
        ((run ms).diagnostics uri).answer =
          ((alone uri t (run ms).settings (run ms).graph).diagnostics uri).answer) ∧
      ∀ uri t, Text.allBlank t.text.toList = false →
        ((run (ms ++ [.closeText uri] ++ [.openText uri t])).diagnostics uri).answer =
          ((alone uri t (run ms).settings (run ms).graph).diagnostics uri).answer := by
  refine ⟨(sound_run ms).opened, ?_, ?_⟩
  · intro uri t hopen hblank
    exact (sound_run ms).answer_diagnostics (fun _ _ _ => h.text_eq) hopen hblank
  · intro uri t hblank
    have hsound := sound_run (ms ++ [.closeText uri] ++ [.openText uri t])
    have hagree := h.reopen uri t
    rw [run_concat, run_concat] at hsound ⊢
    rcases openText_session uri t ((run ms).receive (.closeText uri)) with
      ⟨hopen, hsettings, hgraph⟩
    have hanswer := hsound.answer_diagnostics (fun _ _ _ => hagree.text_eq) hopen hblank
    rw [hanswer]
    exact congrArg₂ (fun settings graph =>
      ((alone uri t settings graph).diagnostics uri).answer) hsettings hgraph

def wholeText : OpenText :=
  ⟨some 1, "k: v\n"⟩

def tornText : OpenText :=
  ⟨some 1, "k: [\n"⟩

/-- A text is closed and opened again with other content, for which its diagnostics are shown. -/
theorem diagnostics_run_tornText :
    Message.Versioned [.openText "a.yaml" wholeText] ∧
      Text.allBlank tornText.text.toList = false ∧
      ((run [.openText "a.yaml" wholeText, .closeText "a.yaml",
        .openText "a.yaml" tornText]).diagnostics "a.yaml").answer =
        ((alone "a.yaml" tornText start.settings none).diagnostics "a.yaml").answer ∧
      (((alone "a.yaml" wholeText start.settings none).diagnostics
        "a.yaml").answer.toOption.map List.length) = some 0 ∧
      (((alone "a.yaml" tornText start.settings none).diagnostics
        "a.yaml").answer.toOption.map List.length) = some 1 := by
  have hfirst : Message.Versioned ([] ++ [.openText "a.yaml" wholeText]) :=
    Message.Versioned.nil.concat fun _ _ _ ht => absurd ht Message.not_noticed_nil
  have hblank : Text.allBlank tornText.text.toList = false := by decide
  have hanswer := (diagnostics_run hfirst).2.2 "a.yaml" tornText hblank
  rcases openText_session "a.yaml" wholeText start with ⟨-, hsettings, hgraph⟩
  have hrun : run ([] ++ [.openText "a.yaml" wholeText]) =
      (start.openText "a.yaml" wholeText).session := rfl
  rw [hrun, hsettings, hgraph] at hanswer
  exact ⟨hfirst, hblank, hanswer, by decide +kernel, by decide +kernel⟩

end Session
end YamlServer
