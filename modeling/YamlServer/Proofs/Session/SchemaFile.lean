import YamlServer.Proofs.Session.Schema

/-!
# Schema files that cannot be used

A schema is optional: a file that is missing, cannot be decoded or is malformed should be told of
and nothing else. This holds of some faults and not of others. What makes a message fail is said
here by the content of the file.

* `Session.apply_outcome`: what becomes of settings that name a file.
-/

namespace YamlServer

open Outcome

/-- A number, a date, a version or an escaped character that has the form of one but no value. -/
inductive Yaml.ObjectFailure.Valueless : Yaml.ObjectFailure → Prop where
  | number : Valueless (.scalar .malformed)
  | date : Valueless .impossibleDate
  | version : Valueless (.halt .longNumeral)
  | character (n : Nat) : n < 2147483648 → Valueless (.halt (.codePoint n))

namespace Graph

/-! ## Children without an entry -/

theorem childTexts?_eq_none_iff {vs : List Value} :
    childTexts? vs = none ↔ ∃ v ∈ vs, ∀ s, v ≠ .str s := by
  induction vs with
  | nil => simp [childTexts?]
  | cons v vs ih =>
    cases v with
    | str s => simp [childTexts?, ih]
    | _ => simp [childTexts?]

theorem danglingOf_eq_error {g : Graph} {parent : Value} {children : List Value} :
    (∃ f, danglingOf g parent children = .error f) ↔ ∃ c ∈ children, c.isKey = false := by
  induction children with
  | nil => simp [danglingOf]
  | cons c rest ih =>
    cases hkey : c.isKey with
    | false => simp [danglingOf, hkey]
    | true =>
      have hrest : (∃ f, danglingOf g parent (c :: rest) = .error f) ↔
          ∃ f, danglingOf g parent rest = .error f := by
        simp only [danglingOf, hkey, if_true, bind_eq_error]
        constructor
        · rintro ⟨f, hfail | ⟨more, -, hlast⟩⟩
          · exact ⟨f, hfail⟩
          · cases hlast
        · rintro ⟨f, hfail⟩
          exact ⟨f, Or.inl hfail⟩
      simp [hrest, ih, hkey]

/-- A traversal fails if it does on one of the elements. -/
theorem mapM_isError_iff {α β : Type} {f : α → Except GraphFault β} {xs : List α} :
    (∃ e, xs.mapM f = .error e) ↔ ∃ x ∈ xs, ∃ e, f x = .error e := by
  constructor
  · rintro ⟨e, he⟩
    rcases mapM_eq_error he with ⟨x, hx, hfail⟩
    exact ⟨x, hx, e, hfail⟩
  · rintro ⟨x, hx, e, he⟩
    cases hall : xs.mapM f with
    | error e' => exact ⟨e', rfl⟩
    | ok ys =>
      rcases (mapM_eq_ok hall).2 x hx with ⟨y, -, hy⟩
      rw [he] at hy
      cases hy

/-- The children without an entry can be listed unless one of the children is no key. -/
theorem dangling_eq_error_iff {g : Graph} :
    (∃ f, g.dangling = .error f) ↔ ∃ e ∈ g.entries, ∃ d ∈ e.2,
      ∃ c ∈ d.children, c.isKey = false := by
  have hparts : (∃ f, g.dangling = .error f) ↔ ∃ f, (g.entries.mapM fun e =>
      e.2.mapM fun d => danglingOf g e.1 d.children) = .error f := by
    simp only [dangling, bind_eq_error]
    constructor
    · rintro ⟨f, hfail | ⟨parts, -, hlast⟩⟩
      · exact ⟨f, hfail⟩
      · cases hlast
    · rintro ⟨f, hfail⟩
      exact ⟨f, Or.inl hfail⟩
  simp only [hparts, mapM_isError_iff, danglingOf_eq_error]

/-! ## What makes a message fail -/

/-- The content of a schema file that makes a message fail. -/
inductive Upsets (p : Path) (cs : List Char) : Prop where
  /-- YAML that is rejected, and not just for a value that does not exist. -/
  | rejected (f : Yaml.ObjectFailure) : isJsonFile p = false → Yaml.Objects.ofChars cs = .error f →
      ¬ f.Valueless → Upsets p cs
  /-- A map that is no graph, and not just for a type that does not exist. -/
  | misshapen (f : GraphFault) : ofText p cs = .error (.graph f) → f.message? = none → Upsets p cs
  /-- A graph with a child that cannot be a key. -/
  | compositeChild (g : Graph) : ofText p cs = .ok g →
      (∃ e ∈ g.entries, ∃ d ∈ e.2, ∃ c ∈ d.children, c.isKey = false) → Upsets p cs
  /-- A graph whose first few children without an entry are not all texts. -/
  | unnamedChild (g : Graph) (ds : List (Value × Value)) : ofText p cs = .ok g →
      g.dangling = .ok ds → (∃ d ∈ ds.take namedChildren, ∀ s, d.2 ≠ .str s) → Upsets p cs

theorem danglingRecords_eq_error_iff {p : Path} {ds : List (Value × Value)} :
    (∃ f, danglingRecords p ds = .error f) ↔ ∃ d ∈ ds.take namedChildren, ∀ s, d.2 ≠ .str s := by
  have hnames : childTexts? ((ds.take namedChildren).map (·.2)) = none ↔
      ∃ d ∈ ds.take namedChildren, ∀ s, d.2 ≠ .str s := by
    simp only [childTexts?_eq_none_iff, List.mem_map]
    constructor
    · rintro ⟨v, ⟨d, hd, rfl⟩, hv⟩
      exact ⟨d, hd, hv⟩
    · rintro ⟨d, hd, hv⟩
      exact ⟨d.2, ⟨d, hd, rfl⟩, hv⟩
  rw [← hnames]
  unfold danglingRecords
  cases ds with
  | nil => simp [childTexts?]
  | cons d rest =>
    simp only [List.isEmpty_cons, Bool.false_eq_true, if_false]
    cases childTexts? (((d :: rest).take namedChildren).map (·.2)) with
    | none => simp
    | some names => simp

theorem danglingRecords_fault {p : Path} {ds : List (Value × Value)} {f : LoadFault}
    (h : danglingRecords p ds = .error f) : f = .childNotText := by
  unfold danglingRecords at h
  split at h
  · cases h
  · split at h
    · cases h
      rfl
    · cases h

theorem danglingOf_fault {g : Graph} {parent : Value} {children : List Value} {f : GraphFault}
    (h : danglingOf g parent children = .error f) : f = .compositeKey := by
  induction children with
  | nil => cases h
  | cons c rest ih =>
    unfold danglingOf at h
    split at h
    · rcases bind_eq_error.1 h with hrest | ⟨more, -, hlast⟩
      · exact ih hrest
      · cases hlast
    · cases h
      rfl

theorem dangling_fault {g : Graph} {f : GraphFault} (h : g.dangling = .error f) :
    f = .compositeKey := by
  rcases bind_eq_error.1 h with hparts | ⟨parts, -, hlast⟩
  · rcases mapM_eq_error hparts with ⟨e, -, hentry⟩
    rcases mapM_eq_error hentry with ⟨d, -, hfail⟩
    exact danglingOf_fault hfail
  · cases hlast

/-! ## The text of a file -/

def graphOf (p : Path) : Option (Except GraphFault Graph) → Except LoadFault Graph
  | none => .error (.notMap p.text)
  | some (.error f) => .error (.graph f)
  | some (.ok g) => .ok g

theorem ofText_of_json {p : Path} {cs : List Char} {data : Value} (hjson : isJsonFile p = true)
    (h : Json.parse cs = .ok data) : ofText p cs = graphOf p (ofData? data) := by
  simp only [ofText, hjson, h, if_true, bind, Except.bind]
  cases ofData? data with
  | none => rfl
  | some answer => cases answer <;> rfl

theorem ofText_of_yaml {p : Path} {cs : List Char} {objects : Yaml.Objects}
    (hjson : isJsonFile p = false) (h : Yaml.Objects.ofChars cs = .ok objects) :
    ofText p cs = graphOf p (ofObjects? objects) := by
  simp only [ofText, hjson, h, Bool.false_eq_true, if_false, bind, Except.bind]
  cases ofObjects? objects with
  | none => rfl
  | some answer => cases answer <;> rfl

theorem ofText_of_rejected {p : Path} {cs : List Char} {f : Yaml.ObjectFailure}
    (hjson : isJsonFile p = false) (h : Yaml.Objects.ofChars cs = .error f) :
    ofText p cs = .error (.yaml f) := by
  simp [ofText, hjson, h, bind, Except.bind]

theorem load_of_text {fs : Files} {path : String} {cs : List Char}
    (hread : fs.readText (Path.parse path) = .ok cs) :
    Graph.load fs path = ofText (Path.parse path) cs >>= fun g =>
      g.dangling.mapError LoadFault.graph >>= fun ds =>
        danglingRecords (Path.parse path) ds >>= fun records => pure (g, records) := by
  simp only [Graph.load, hread, bind, Except.bind]
  cases ofText (Path.parse path) cs with
  | error f => rfl
  | ok g => cases hdangling : g.dangling <;> simp [hdangling, Except.mapError]

end Graph

namespace Session

open YamlServer.Graph

/-! ## Faults that are told of -/

theorem isTolerated_yaml_iff (f : Yaml.ObjectFailure) :
    isTolerated (.yaml f) = true ↔ f.Valueless := by
  constructor
  · intro h
    cases f with
    | halt halt =>
      cases halt with
      | fault _ => cases h
      | codePoint n => exact .character n (by simpa [isTolerated] using h)
      | longNumeral => exact .version
    | scalar fault =>
      cases fault with
      | malformed => exact .number
      | notBoolean => cases h
      | emptyNumeral => cases h
      | tooLarge => cases h
    | notTimestamp => cases h
    | impossibleDate => exact .date
    | timestampNode => cases h
  · intro h
    cases h with
    | number => rfl
    | date => rfl
    | version => rfl
    | character n hn => simpa [isTolerated] using hn

theorem isTolerated_graphOf {p : Path} {answer : Option (Except GraphFault Graph)} {f : LoadFault}
    (h : graphOf p answer = .error f) (htold : isTolerated f = false) :
    ∃ f', f = .graph f' ∧ f'.message? = none := by
  cases answer with
  | none =>
    cases h
    cases htold
  | some answer =>
    cases answer with
    | ok g => cases h
    | error f' =>
      cases h
      exact ⟨f', rfl, by simpa [isTolerated] using htold⟩

/-- A text whose fault is not told of makes a message fail. -/
theorem upsets_of_ofText {p : Path} {cs : List Char} {f : LoadFault} (h : ofText p cs = .error f)
    (htold : isTolerated f = false) : Upsets p cs := by
  have hshape : ∀ answer, ofText p cs = graphOf p answer → Upsets p cs := by
    intro answer hanswer
    rcases isTolerated_graphOf (hanswer.symm.trans h) htold with ⟨f', rfl, hmessage⟩
    exact .misshapen f' h hmessage
  cases hjson : isJsonFile p with
  | true =>
    cases hdata : Json.parse cs with
    | ok data => exact hshape _ (ofText_of_json hjson hdata)
    | error f' =>
      simp only [ofText, hjson, hdata, if_true, bind, Except.bind, Except.error.injEq] at h
      rw [← h] at htold
      cases htold
  | false =>
    cases hobjects : Yaml.Objects.ofChars cs with
    | ok objects => exact hshape _ (ofText_of_yaml hjson hobjects)
    | error f' =>
      rw [ofText_of_rejected hjson hobjects, Except.error.injEq] at h
      rw [← h, ← Bool.not_eq_true, isTolerated_yaml_iff] at htold
      exact .rejected f' hjson hobjects htold

theorem upsets_of_load {fs : Files} {path : String} {cs : List Char} {f : LoadFault}
    (hread : fs.readText (Path.parse path) = .ok cs) (hload : Graph.load fs path = .error f)
    (htold : isTolerated f = false) : Upsets (Path.parse path) cs := by
  rw [load_of_text hread] at hload
  -- The fault comes from the text, or from its dangling names, or from telling of them.
  rcases bind_eq_error.1 hload with htext | ⟨g, hg, hrest⟩
  · exact upsets_of_ofText htext htold
  · rcases bind_eq_error.1 hrest with hlist | ⟨ds, hds, hrecords⟩
    · rcases mapError_eq_error.1 hlist with ⟨f', hdangling, -⟩
      exact .compositeChild g hg (dangling_eq_error_iff.1 ⟨f', hdangling⟩)
    · rcases bind_eq_error.1 hrecords with hnamed | ⟨records, -, hlast⟩
      · refine .unnamedChild g ds hg (mapError_eq_ok.1 hds) ?_
        exact danglingRecords_eq_error_iff.1 ⟨f, hnamed⟩
      · cases hlast

theorem load_of_upsets {fs : Files} {path : String} {cs : List Char}
    (hread : fs.readText (Path.parse path) = .ok cs) (h : Upsets (Path.parse path) cs) :
    ∃ f, Graph.load fs path = .error f ∧ isTolerated f = false := by
  rw [load_of_text hread]
  cases h with
  | rejected f hjson hobjects hvalue =>
    refine ⟨.yaml f, bind_eq_error.2 (Or.inl (ofText_of_rejected hjson hobjects)), ?_⟩
    rw [← Bool.not_eq_true, isTolerated_yaml_iff]
    exact hvalue
  | misshapen f htext hmessage =>
    exact ⟨.graph f, bind_eq_error.2 (Or.inl htext), by simp [isTolerated, hmessage]⟩
  | compositeChild g hg hchild =>
    rcases dangling_eq_error_iff.2 hchild with ⟨f, hdangling⟩
    have hlist : g.dangling.mapError LoadFault.graph = .error (.graph f) :=
      mapError_eq_error.2 ⟨f, hdangling, rfl⟩
    refine ⟨.graph f, bind_eq_error.2 (Or.inr ⟨g, hg, bind_eq_error.2 (Or.inl hlist)⟩), ?_⟩
    rw [dangling_fault hdangling]
    rfl
  | unnamedChild g ds hg hdangling hchild =>
    rcases danglingRecords_eq_error_iff.2 hchild with ⟨f, hrecords⟩
    have hf := danglingRecords_fault (p := Path.parse path) hrecords
    refine ⟨f, bind_eq_error.2 (Or.inr ⟨g, hg, bind_eq_error.2 (Or.inr ⟨ds, ?_, ?_⟩)⟩), ?_⟩
    · exact mapError_eq_ok.2 hdangling
    · exact bind_eq_error.2 (Or.inl hrecords)
    · rw [hf]
      rfl

/-- The text of a file makes a message fail if loading it ends in a fault that is not told of. -/
theorem upsets_iff {fs : Files} {path : String} {cs : List Char}
    (hread : fs.readText (Path.parse path) = .ok cs) :
    (∃ f, Graph.load fs path = .error f ∧ isTolerated f = false) ↔ Upsets (Path.parse path) cs :=
  ⟨fun ⟨_, hload, htold⟩ => upsets_of_load hread hload htold, load_of_upsets hread⟩

/-! ## Settings that name a file -/

variable {fs : Files} {settings : Settings} {path : String}

theorem isTolerated_of_unreadable {f : LoadFault} {t : Files.TextFault}
    (hread : fs.readText (Path.parse path) = .error t) (hload : Graph.load fs path = .error f) :
    isTolerated f = true := by
  simp only [Graph.load, hread, bind, Except.bind, Except.error.injEq] at hload
  rw [← hload]
  rfl

/-- Loading a file gives a graph or a fault that is told of, unless its text is upsetting. -/
theorem load_is_tolerated_iff :
    (∀ f, Graph.load fs path = .error f → isTolerated f = true) ↔
      ∀ cs, fs.readText (Path.parse path) = .ok cs → ¬ Upsets (Path.parse path) cs := by
  constructor
  · intro htold cs hread hupsets
    rcases (upsets_iff hread).2 hupsets with ⟨f, hload, hnot⟩
    rw [htold f hload] at hnot
    cases hnot
  · intro hcalm f hload
    cases hread : fs.readText (Path.parse path) with
    | error t => exact isTolerated_of_unreadable hread hload
    | ok cs =>
      by_contra hnot
      exact hcalm cs hread ((upsets_iff hread).1 ⟨f, hload, Bool.eq_false_iff.2 hnot⟩)

/-- What loading the schema does where there is no graph: it succeeds unless the text of the file is
upsetting, and then there is the graph of the file, or none and a warning. -/
theorem loadSchema_outcome {s : Session} (hpath : s.settings.schemaPath = .str path)
    (hne : path ≠ "") (hgraph : s.graph = none) :
    ((s.loadSchema fs).answer = .ok () ↔
        ∀ cs, fs.readText (Path.parse path) = .ok cs → ¬ Upsets (Path.parse path) cs) ∧
      ((s.loadSchema fs).answer = .ok () →
        (∃ g records, Graph.load fs path = .ok (g, records) ∧
            (s.loadSchema fs).session.graph = some g) ∨
          (s.loadSchema fs).session.graph = none ∧
            (s.loadSchema fs).logged = Log.kept (s.loadSchema fs).session.level [unloadable path]) ∧
      ((s.loadSchema fs).answer ≠ .ok () → (s.loadSchema fs).session.graph = none) := by
  have htext : s.settings.schemaPath.plainText = path := by
    rw [hpath]
    rfl
  rw [← load_is_tolerated_iff]
  rcases loadSchema_cases fs s with ⟨hfalse, -⟩ | ⟨-, ⟨g, records, hload, hrun⟩ | ⟨f, hload, hrun⟩⟩
  · simp [hpath, Value.isTrue, hne] at hfalse
  · rw [htext] at hload
    rw [hrun, hload]
    exact ⟨iff_of_true rfl nofun, fun _ => Or.inl ⟨g, records, rfl, rfl⟩, fun h => absurd rfl h⟩
  · rw [htext] at hload hrun
    rw [hrun]
    cases htold : isTolerated f with
    | true =>
      refine ⟨iff_of_true rfl ?_, fun _ => Or.inr ⟨hgraph, rfl⟩, fun _ => hgraph⟩
      intro f' hload'
      rw [hload] at hload'
      cases hload'
      exact htold
    | false =>
      refine ⟨iff_of_false nofun ?_, nofun, fun _ => hgraph⟩
      intro hall
      rw [hall f hload] at htold
      cases htold

/-- What installing settings that name a file does. They are installed in any case. It succeeds
exactly if the log level can be written and the graph is kept or the text of the file, if it can be
read, is not upsetting. After a success the graph is one that was loaded for this path, now or
before, or there is none and a warning goes to the log; after a failure there is none, or the log
level cannot be written and the graph is the one before. -/
theorem apply_outcome (hpath : settings.schemaPath = .str path) (hne : path ≠ "") (s : Session) :
    (s.apply fs settings).session.settings = settings ∧
      ((s.apply fs settings).answer = .ok () ↔
        settings.LevelIsWritable ∧ (s.Keeps settings ∨
          ∀ cs, fs.readText (Path.parse path) = .ok cs → ¬ Upsets (Path.parse path) cs)) ∧
      ((s.apply fs settings).answer = .ok () →
        (∃ g, (s.apply fs settings).session.graph = some g ∧
            ((s.settings.schemaPath = .str path ∧ s.graph = some g) ∨
              ∃ records, Graph.load fs path = .ok (g, records))) ∨
          (s.apply fs settings).session.graph = none ∧
            (s.apply fs settings).logged =
              Log.kept (s.apply fs settings).session.level [unloadable path]) ∧
      ((s.apply fs settings).answer ≠ .ok () →
        (s.apply fs settings).session.graph = none ∨
          ¬ settings.LevelIsWritable ∧ (s.apply fs settings).session.graph = s.graph) := by
  refine ⟨by simp, ?_⟩
  rcases apply_cases fs settings s with
    ⟨hwritable, hrun⟩ | ⟨hwritable, level, ⟨hkeeps, hrun⟩ | ⟨hkeeps, hrun⟩⟩
  · rw [hrun]
    exact ⟨iff_of_false nofun fun h => hwritable h.1, nofun, fun _ => Or.inr ⟨hwritable, rfl⟩⟩
  · rw [hrun]
    refine ⟨iff_of_true rfl ⟨hwritable, Or.inl hkeeps⟩, fun _ => Or.inl ?_, fun h => absurd rfl h⟩
    rcases Option.isSome_iff_exists.1 hkeeps.2 with ⟨g, hg⟩
    have hsame : s.settings.schemaPath = .str path := by
      have hboth := hkeeps.1
      rw [hpath] at hboth
      exact Value.same_str_left.1 hboth
    exact ⟨g, hg, Or.inl ⟨hsame, hg⟩⟩
  · have hload :=
      @loadSchema_outcome fs path { s with settings, level, graph := none } hpath hne rfl
    rw [hrun]
    refine ⟨by simp [hload.1, hwritable, hkeeps], ?_, fun hnot => Or.inl (hload.2.2 hnot)⟩
    intro hok
    rcases hload.2.1 hok with ⟨g, records, hg, hgraph⟩ | hwarned
    · exact Or.inl ⟨g, hgraph, Or.inr ⟨records, hg⟩⟩
    · exact Or.inr hwarned

def settingsOfPath (path : String) : Settings :=
  { Settings.ofRoot none with schemaPath := .str path }

/-- A torn file of JSON is told of, and leaves no graph. -/
theorem apply_outcome_tornJson :
    "/torn.json" ≠ "" ∧
      (start.apply schemaFiles (settingsOfPath "/torn.json")).answer = .ok () ∧
      (start.apply schemaFiles (settingsOfPath "/torn.json")).session.graph = none ∧
      (start.apply schemaFiles (settingsOfPath "/torn.json")).logged =
        [unloadable "/torn.json"] := by
  have hpath : (settingsOfPath "/torn.json").schemaPath = .str "/torn.json" := rfl
  have hne : "/torn.json" ≠ "" := by decide
  have hisOk : (start.apply schemaFiles (settingsOfPath "/torn.json")).answer.isOk = true := by
    decide +kernel
  have hanswer : (start.apply schemaFiles (settingsOfPath "/torn.json")).answer = .ok () := by
    cases hrun : (start.apply schemaFiles (settingsOfPath "/torn.json")).answer with
    | ok u => rfl
    | error f =>
        rw [hrun] at hisOk
        cases hisOk
  rcases (apply_outcome hpath hne start).2.2.1 hanswer with ⟨g, hg, -⟩ | ⟨hnone, hlogged⟩
  · have hisSome : (start.apply schemaFiles (settingsOfPath "/torn.json")).session.graph.isSome =
        false := by decide +kernel
    rw [hg] at hisSome
    cases hisSome
  · exact ⟨hne, hanswer, hnone, hlogged.trans (by decide +kernel)⟩

def tornYaml : Files :=
  .ofTexts [(["torn.yaml"], "k: [".toList)]

/-- A torn file of YAML makes the message fail. -/
theorem apply_tornYaml :
    (start.apply tornYaml (settingsOfPath "/torn.yaml")).answer.isOk = false ∧
      (start.apply tornYaml (settingsOfPath "/torn.yaml")).logged = [] := by
  decide +kernel

end Session
end YamlServer
