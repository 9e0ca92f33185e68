import YamlServer.Proofs.Settings.Layers

/-!
# Project files that cannot be used

A workspace may have a project file, whose members are the first layer of the settings. A file that
is no TOML is told of and counts as empty. This is not so of every file that cannot be used: some
contents make loading fail, and are listed here.

* `Settings.load_of_projectFile`: what loading does, by the content of the file.
-/

namespace YamlServer

open Outcome

namespace Settings

/-! ## Members -/

/-- The members of a map; anything else has none. -/
def membersOf : Value → List (Value × Value)
  | .map members => members
  | _ => []

/-- The members that a project file gives: those of its section `yaml` or, without one, all. -/
def projectMembers (entries : Toml.Entries) : List (Value × Value) :=
  ((Value.get? entries "yaml").map membersOf).getD entries

def projectPath (root : String) : Path :=
  (Path.parse root).join ⟨0, [projectFileName]⟩

@[simp]
theorem projectSection_eq (entries : Toml.Entries) :
    projectSection entries = .map (projectMembers entries) := by
  unfold projectSection projectMembers
  cases Value.get? entries "yaml" with
  | none => rfl
  | some v => cases v <;> rfl

@[simp]
theorem optionsLayer_eq (options : Value) : optionsLayer options = .map (membersOf options) := by
  cases options <;> rfl

/-! ## Reading the file -/

section Reading

variable {fs : Files} {root : String} {cs : List Char} {entries : Toml.Entries}

theorem exists?_of_read {p : Path} {data : List UInt8} (h : fs.read p = .ok data) :
    fs.exists? p = true := by
  rcases bind_eq_ok.1 h with ⟨entry, hfind, -⟩
  simp [Files.exists?, hfind]

theorem readText_of_read {p : Path} {data : List UInt8} (h : fs.read p = .ok data)
    (hdecode : Utf8.decode data = .ok cs) : fs.readText p = .ok (Files.feeds cs) := by
  simp [Files.readText, h, hdecode]

theorem exists?_of_readText {p : Path} (h : fs.readText p = .ok cs) : fs.exists? p = true := by
  cases hread : fs.read p with
  | error f => simp [Files.readText, hread] at h
  | ok data => exact exists?_of_read hread

theorem readProject_of_absent (hne : root ≠ "") (h : fs.exists? (projectPath root) = false) :
    readProject fs (some root) = ([], .ok (.map [])) := by
  rw [projectPath] at h
  simp [readProject, h]

theorem readProject_of_toml (hne : root ≠ "") (h : fs.readText (projectPath root) = .ok cs)
    (hparse : Toml.parse cs = .ok entries) :
    readProject fs (some root) = ([], .ok (.map (projectMembers entries))) := by
  have hexists := exists?_of_readText h
  rw [projectPath] at h hexists
  simp [readProject, hexists, h, hparse, projectSection_eq]

theorem readProject_of_malformed (hne : root ≠ "") (h : fs.readText (projectPath root) = .ok cs)
    (hparse : Toml.parse cs = .error .malformed) :
    readProject fs (some root) = ([unreadable (projectPath root)], .ok (.map [])) := by
  have hexists := exists?_of_readText h
  rw [projectPath] at h hexists ⊢
  simp [readProject, hexists, h, hparse]

theorem readProject_of_longNumeral (hne : root ≠ "") (h : fs.readText (projectPath root) = .ok cs)
    (hparse : Toml.parse cs = .error .longNumeral) :
    readProject fs (some root) = ([], .error .longNumeral) := by
  have hexists := exists?_of_readText h
  rw [projectPath] at h hexists
  simp [readProject, hexists, h, hparse]

theorem readProject_of_undecodable {data : List UInt8} {f : Utf8.Fault} (hne : root ≠ "")
    (h : fs.read (projectPath root) = .ok data) (hdecode : Utf8.decode data = .error f) :
    readProject fs (some root) = ([], .error (.encoding f)) := by
  have hexists := exists?_of_read h
  have htext : fs.readText (projectPath root) = .error (.encoding f) := by
    simp [Files.readText, h, hdecode]
  rw [projectPath] at htext hexists
  simp [readProject, hexists, htext]

/-- The members that the project file of a workspace gives: none if there is no file, and those of a
file that is TOML. -/
inductive ProjectGives (fs : Files) (root : String) : List (Value × Value) → Prop
  | absent (h : fs.exists? (projectPath root) = false) : ProjectGives fs root []
  | toml {cs : List Char} {entries : Toml.Entries} (h : fs.readText (projectPath root) = .ok cs)
      (hparse : Toml.parse cs = .ok entries) : ProjectGives fs root (projectMembers entries)

theorem ProjectGives.readProject {members : List (Value × Value)} (h : ProjectGives fs root members)
    (hne : root ≠ "") : readProject fs (some root) = ([], .ok (.map members)) := by
  cases h with
  | absent habsent => exact readProject_of_absent hne habsent
  | toml htext hparse => exact readProject_of_toml hne htext hparse

end Reading

/-! ## Loading -/

/-- The contents of a project file that make loading fail: bytes that are not UTF-8, a number that
is too long to be read, and a recognised member whose value cannot be taken. -/
inductive Breaks (homes : List (String × String)) (data : List UInt8) : Prop
  | undecodable {f : Utf8.Fault} (h : Utf8.decode data = .error f)
  | longNumeral {cs : List Char} (h : Utf8.decode data = .ok cs)
      (hparse : Toml.parse (Files.feeds cs) = .error .longNumeral)
  | value {cs : List Char} {entries : Toml.Entries} (h : Utf8.decode data = .ok cs)
      (hparse : Toml.parse (Files.feeds cs) = .ok entries)
      (hmember : ¬ Accepts homes (projectMembers entries))

section Loading

variable {fs : Files} {root : String} {records : List Log.Record}

/-- Without other layers, the settings are those of the project file. -/
theorem load_alone {project : Except Fault Value}
    (h : readProject fs (some root) = (records, project)) :
    load fs (some root) .null .null =
      (records, project >>= (ofRoot (some root)).merged fs.homes) := by
  rw [load, h]
  cases project with
  | error f => rfl
  | ok layer =>
    change (records, (ofRoot (some root)).merged fs.homes layer >>= fun s => .ok s) = _
    cases hmerged : (ofRoot (some root)).merged fs.homes layer with
    | error f => exact congrArg (records, ·) hmerged.symm
    | ok s => exact congrArg (records, ·) hmerged.symm

/-- If all layers can be taken, the settings follow them in turn. -/
theorem load_follows {project overrides options : List (Value × Value)} (hne : root ≠ "")
    (hproject : readProject fs (some root) = (records, .ok (.map project)))
    (haccepts : Accepts fs.homes project) (hoverrides : Accepts fs.homes overrides)
    (hoptions : Accepts fs.homes options) :
    ∃ s, load fs (some root) (.map options) (.map overrides) = (records, .ok s) ∧
      Follows fs.homes root [project, overrides, options] s := by
  rcases (Follows.ofRoot fs.homes root).merged hne haccepts with ⟨s₁, hs₁, hfollows₁⟩
  rcases hfollows₁.merged hne hoverrides with ⟨s₂, hs₂, hfollows₂⟩
  rcases hfollows₂.merged hne hoptions with ⟨s₃, hs₃, hfollows₃⟩
  refine ⟨s₃, ?_, hfollows₃⟩
  rw [load, hproject]
  refine congrArg (records, ·) ?_
  exact bind_eq_ok.2 ⟨_, rfl, bind_eq_ok.2 ⟨s₁, hs₁, bind_eq_ok.2 ⟨s₂, hs₂, hs₃⟩⟩⟩

/-- A project file that is TOML is the only layer. -/
theorem load_of_toml {cs : List Char} {entries : Toml.Entries} {data : List UInt8} (hne : root ≠ "")
    (hread : fs.read (projectPath root) = .ok data) (hdecode : Utf8.decode data = .ok cs)
    (hparse : Toml.parse (Files.feeds cs) = .ok entries) :
    load fs (some root) .null .null =
      ([], (ofRoot (some root)).merged fs.homes (.map (projectMembers entries))) :=
  load_alone (readProject_of_toml hne (readText_of_read hread hdecode) hparse)

theorem load_of_breaks {data : List UInt8} (hne : root ≠ "")
    (hread : fs.read (projectPath root) = .ok data) (h : Breaks fs.homes data) (s : Settings) :
    (load fs (some root) .null .null).2 ≠ .ok s := by
  intro hload
  cases h with
  | undecodable hdecode =>
    rw [load_alone (readProject_of_undecodable hne hread hdecode)] at hload
    cases hload
  | longNumeral hdecode hparse =>
    have htext := readText_of_read hread hdecode
    rw [load_alone (readProject_of_longNumeral hne htext hparse)] at hload
    cases hload
  | value hdecode hparse hmember =>
    rw [load_of_toml hne hread hdecode hparse] at hload
    exact hmember (accepts_of_merged hload)

theorem load_of_malformed {data : List UInt8} {cs : List Char} (hne : root ≠ "")
    (hread : fs.read (projectPath root) = .ok data) (hdecode : Utf8.decode data = .ok cs)
    (hparse : Toml.parse (Files.feeds cs) = .error .malformed) :
    load fs (some root) .null .null =
      ([unreadable (projectPath root)], .ok (ofRoot (some root))) :=
  load_alone (readProject_of_malformed hne (readText_of_read hread hdecode) hparse)

/-- What breaks loading is all that can: every other content is no TOML, or has members that are
taken. -/
theorem exists_load_of_not_breaks {data : List UInt8} (hne : root ≠ "")
    (hread : fs.read (projectPath root) = .ok data) (h : ¬ Breaks fs.homes data) :
    ∃ s, (load fs (some root) .null .null).2 = .ok s := by
  cases hdecode : Utf8.decode data with
  | error f => exact absurd (.undecodable hdecode) h
  | ok cs =>
    cases hparse : Toml.parse (Files.feeds cs) with
    | error f =>
      cases f with
      | longNumeral => exact absurd (.longNumeral hdecode hparse) h
      | malformed => exact ⟨_, congrArg Prod.snd (load_of_malformed hne hread hdecode hparse)⟩
    | ok entries =>
      have haccepts : Accepts fs.homes (projectMembers entries) :=
        Classical.not_not.1 fun hmember => h (.value hdecode hparse hmember)
      rcases (Follows.ofRoot fs.homes root).merged hne haccepts with ⟨s, hs, -⟩
      exact ⟨s, by rw [load_of_toml hne hread hdecode hparse]; exact hs⟩

/-- Loading gives settings unless the project file has a content that breaks it. A file that is no
TOML is told of and leaves the defaults, and the members of any other one are followed. -/
theorem load_of_projectFile {data : List UInt8} (hne : root ≠ "")
    (hread : fs.read (projectPath root) = .ok data) :
    ((∃ s, (load fs (some root) .null .null).2 = .ok s) ↔ ¬ Breaks fs.homes data) ∧
      (∀ cs, Utf8.decode data = .ok cs → Toml.parse (Files.feeds cs) = .error .malformed →
        load fs (some root) .null .null =
          ([unreadable (projectPath root)], .ok (ofRoot (some root)))) ∧
      ∀ cs entries s, Utf8.decode data = .ok cs → Toml.parse (Files.feeds cs) = .ok entries →
        (load fs (some root) .null .null).2 = .ok s →
        Follows fs.homes root [projectMembers entries] s := by
  refine ⟨⟨?_, exists_load_of_not_breaks hne hread⟩, ?_, ?_⟩
  · rintro ⟨s, hload⟩ hbreaks
    exact load_of_breaks hne hread hbreaks s hload
  · exact fun cs hdecode hparse => load_of_malformed hne hread hdecode hparse
  · intro cs entries s hdecode hparse hload
    rw [load_of_toml hne hread hdecode hparse] at hload
    rcases (Follows.ofRoot fs.homes root).merged hne (accepts_of_merged hload) with
      ⟨s', hs', hfollows⟩
    cases hload.symm.trans hs'
    exact hfollows

def workspaceOf (data : List UInt8) : Files :=
  ⟨⟨1, []⟩, [], [(["w", projectFileName], data)]⟩

def tornFile : List UInt8 :=
  "custom_tags = [".toList.map fun c => .ofNat c.toNat

theorem load_of_projectFile_tornFile :
    ¬ Breaks [] tornFile ∧ load (workspaceOf tornFile) (some "/w") .null .null =
      ([unreadable (projectPath "/w")], .ok (ofRoot (some "/w"))) := by
  have hdecode : Utf8.decode tornFile = .ok "custom_tags = [".toList :=
    toOption_eq_some.1 (by decide +kernel)
  have hparse : Toml.parse (Files.feeds "custom_tags = [".toList) = .error .malformed :=
    fault?_eq_some.1 (by decide +kernel)
  have hloads := @load_of_projectFile (workspaceOf tornFile) "/w" tornFile (by decide)
    (toOption_eq_some.1 (by decide +kernel))
  have hload := hloads.2.1 _ hdecode hparse
  exact ⟨hloads.1.1 ⟨_, congrArg Prod.snd hload⟩, hload⟩

/-- Bytes that are not UTF-8 break loading, and nothing is told of. -/
theorem load_undecodable :
    load (workspaceOf [0xff]) (some "/w") .null .null =
      ([], .error (.encoding ⟨.start, 0xff, 0, 0⟩)) := by
  have hread : (workspaceOf [0xff]).read (projectPath "/w") = .ok [0xff] :=
    toOption_eq_some.1 (by decide +kernel)
  have hdecode : Utf8.decode [0xff] = .error ⟨.start, 0xff, 0, 0⟩ :=
    fault?_eq_some.1 (by decide +kernel)
  exact load_alone (readProject_of_undecodable (by decide) hread hdecode)

end Loading
end Settings
end YamlServer
