import Mathlib.Data.List.Forall2
import YamlServer.Proofs.Document.Ranges
import YamlServer.Proofs.Document.Resolution
import YamlServer.Proofs.Graph.Walk

/-!
# The ranges of schema findings

A schema complains about pairs and about the scalars that are their values. A pair is shown at its
key and a scalar at itself, and both have a place in every document that was read from a text. The
line that is counted on the way is therefore never needed.

* `DocumentSet.schemaDiagnostics_of_parse`: all findings about a document of a text are shown at
  their nodes.
-/

namespace YamlServer

open Text

/-! ## Where findings are made -/

namespace Graph

open YamlServer.Tree (Place)

/-- A finding made at an inspected place: it bears the number and the place of the node. Unknown
keys are found at pairs, wrong types at the scalar values of pairs, and nothing elsewhere. -/
structure Complains (g : Graph) (p : Place) (f : SchemaFinding) : Prop where
  node : f.node = p.id
  start : f.start = p.node.located.start?
  stop : f.stop = p.node.located.stop?
  inspects : g.Inspects p
  subject : p.node.keyText?.isSome ∨ p.scalarValue?.isSome
  unknown : f.warning = .unknownKey → p.node.keyText?.isSome
  mistyped : f.warning = .typeMismatch → p.scalarValue?.isSome

variable {g : Graph} {m : Nat → Tree → Except GraphFault (List Definition)} {p : Place}

theorem objection_eq_typeMismatch {key : String} {value : Option Value} {ds : List Definition}
    {message : String} (h : objection key value ds = some (.typeMismatch, message)) :
    value.isSome := by
  unfold objection at h
  split at h
  · cases h
  · split at h
    · rfl
    · cases h

/-- What is wrong at a place is wrong with a pair or with a scalar that is a pair's value. -/
theorem complaintAt_cases {w : SchemaWarning} {message : String}
    (h : g.complaintAt m p = .ok (some (w, message))) :
    g.Inspects p ∧ (p.node.keyText?.isSome ∨ p.scalarValue?.isSome) ∧
      (w = .unknownKey → p.node.keyText?.isSome) ∧ (w = .typeMismatch → p.scalarValue?.isSome) := by
  unfold complaintAt at h
  split at h
  case isTrue hrejects =>
    rcases hrejects with ⟨hinspects, k, hk, -⟩
    have htext : p.node.keyText?.isSome := Option.isSome_of_mem hk
    cases h
    refine ⟨hinspects, Or.inl htext, fun _ => htext, ?_⟩
    intro hw
    cases hw
  case isFalse =>
    split at h
    case isTrue hjudges =>
      rcases Outcome.map_eq_ok.1 h with ⟨ds, -, hobjection⟩
      refine ⟨hjudges.1, ?_, ?_, ?_⟩
      · exact hjudges.2.imp_left fun ⟨k, hk, _⟩ => Option.isSome_of_mem hk
      · rintro rfl
        exact absurd (congrArg (Option.map (·.1)) hobjection) (objection_ne_unknownKey _ _ _)
      · rintro rfl
        exact objection_eq_typeMismatch hobjection
    case isFalse => cases h

/-- One step of the walk keeps the findings there are and makes new ones at its own place only. -/
theorem stepAt_findings {r r' : Report} (h : g.stepAt m r p = .ok r') {f : SchemaFinding}
    (hf : f ∈ r'.findings) : f ∈ r.findings ∨ g.Complains p f := by
  rcases Outcome.map_eq_ok.1 h with ⟨c, hc, rfl⟩
  -- Counting a line leaves the findings alone.
  have hnoted : f ∈ (r.note p.id p.node c).findings := by
    unfold tally at hf
    split at hf
    · exact hf
    · exact hf
  cases c with
  | none => exact Or.inl hnoted
  | some complaint =>
    rcases complaint with ⟨w, message⟩
    rcases List.mem_append.1 hnoted with hold | hnew
    · exact Or.inl hold
    · rcases complaintAt_cases hc with ⟨hinspects, hsubject, hunknown, hmistyped⟩
      rw [List.mem_singleton.1 hnew]
      exact Or.inr ⟨rfl, rfl, rfl, hinspects, hsubject, hunknown, hmistyped⟩

theorem foldlM_findings {ps : List Place} {r r' : Report}
    (h : ps.foldlM (g.stepAt m) r = .ok r') {f : SchemaFinding} (hf : f ∈ r'.findings) :
    f ∈ r.findings ∨ ∃ p ∈ ps, g.Complains p f := by
  induction ps generalizing r with
  | nil =>
    cases h
    exact Or.inl hf
  | cons p ps ih =>
    rw [List.foldlM_cons] at h
    rcases Outcome.bind_eq_ok.1 h with ⟨middle, hstep, hrest⟩
    rcases ih hrest with hmiddle | ⟨q, hq, hcomplains⟩
    · rcases stepAt_findings hstep hmiddle with hold | hnew
      · exact Or.inl hold
      · exact Or.inr ⟨p, List.mem_cons_self, hnew⟩
    · exact Or.inr ⟨q, List.mem_cons_of_mem _ hq, hcomplains⟩

/-- Every finding about a document is made at a place of its tree. -/
theorem exists_complains {d : Document} {report : Report} (h : g.validate d = .ok report)
    {f : SchemaFinding} (hf : f ∈ report.findings) :
    ∃ root, d.root = some root ∧ ∃ p ∈ root.places, g.Complains p f := by
  rw [validate_eq_foldlM] at h
  rcases foldlM_findings h hf with hnone | ⟨p, hp, hcomplains⟩
  · cases hnone
  · cases hroot : d.root with
    | none =>
      rw [hroot] at hp
      cases hp
    | some root =>
      rw [hroot] at hp
      exact ⟨root, rfl, p, hp, hcomplains⟩

end Graph

/-! ## Where findings are shown -/

namespace Tree

def isScalar : Tree → Bool
  | .scalar .. => true
  | _ => false

/-- The range at which a pair or a scalar is shown: that of the key, or its own. -/
inductive ShownAt (start stop : Nat) : Tree → Prop where
  | pair (key value : Tree) :
      key.range? = some (start, stop) → ShownAt start stop (.pair (some key) (some value))
  | scalar (info : Info) (value : Value) (raw : String) (style : Option Yaml.Style) :
      (Tree.scalar info value raw style).range? = some (start, stop) →
      ShownAt start stop (.scalar info value raw style)

theorem isScalar_of_scalarValue? {p : Place} (h : p.scalarValue?.isSome) :
    p.node.isScalar = true := by
  unfold Place.scalarValue? at h
  split at h
  · rename_i hnode _
    rw [hnode]
    rfl
  · cases h

theorem isPair_of_keyText? {t : Tree} (h : t.keyText?.isSome) : t.isPair = true := by
  rcases Option.isSome_iff_exists.1 h with ⟨k, hk⟩
  exact Graph.keyText?_eq_some hk

/-- A pair or a scalar below a nested root is shown at a range inside that of the root. -/
theorem Settled.shownAt {root t : Tree} {around : Option Tree} (h : Settled root around t)
    (hsubject : t.isPair = true ∨ t.isScalar = true) :
    t.ShownAt t.located.extent.1 t.located.extent.2 ∧ t.located.Nested ∧ t.located.Inside root := by
  cases h with
  | ranged _ hnested hinside _ =>
    cases t with
    | scalar info value raw style =>
      exact ⟨.scalar info value raw style hnested.range?_eq, hnested, hinside⟩
    | pair key value => cases hnested
    | _ => simp [isPair, isScalar] at hsubject
  | pair key value hkey _ _ hinside _ _ => exact ⟨.pair key value hkey.range?_eq, hkey, hinside⟩

end Tree

/-- A finding about a node of a document and the diagnostic for it: the offsets of the finding are
those at which the node is shown, and the diagnostic has their positions in the text. -/
structure SchemaFinding.Shows (source : String) (d : Document) (f : SchemaFinding)
    (shown : Diagnostic) : Prop where
  place : ∃ t start stop, Tree.nodeAt? d.visits f.node = some t ∧ t.ShownAt start stop ∧
    f.start = some start ∧ f.stop = some stop ∧ start ≤ stop ∧ stop ≤ source.length ∧
    shown.range = ⟨Range.positionAt (Lines.ofText source) (Int.ofNat start),
      Range.positionAt (Lines.ofText source) (Int.ofNat stop)⟩ ∧
    (f.warning = .unknownKey → t.isPair = true) ∧
    (f.warning = .typeMismatch → t.isScalar = true)
  wellFormed : shown.range.WellFormed (Lines.ofText source)
  message : shown.message = f.message
  origin : shown.origin = .schema f.warning

theorem SchemaFinding.diagnostic?_of_range {b : Lines} {f : SchemaFinding} {start stop : Nat}
    (hstart : f.start = some start) (hstop : f.stop = some stop) (hle : start ≤ stop) :
    f.diagnostic? b = some ⟨⟨Range.positionAt b (Int.ofNat start),
      Range.positionAt b (Int.ofNat stop)⟩, f.message, .warning, .schema f.warning⟩ := by
  have hmax : max (Int.ofNat start) (Int.ofNat stop) = Int.ofNat stop :=
    Int.max_eq_right (Int.ofNat_le.2 hle)
  simp only [diagnostic?, range?, hstart, hstop, Option.map_some, Range.ofPlace?, Range.ofOffsets,
    Bool.false_eq_true, if_false, hmax]

/-- A function with a result for every element has the list of them for the list. -/
theorem exists_mapM_of_forall {α β : Type} {f : α → Option β} {related : α → β → Prop} {xs : List α}
    (h : ∀ x ∈ xs, ∃ y, f x = some y ∧ related x y) :
    ∃ ys, xs.mapM f = some ys ∧ List.Forall₂ related xs ys := by
  induction xs with
  | nil => exact ⟨[], rfl, .nil⟩
  | cons x xs ih =>
    rcases h x List.mem_cons_self with ⟨y, hy, hrelated⟩
    rcases ih fun x' hx' => h x' (List.mem_cons_of_mem _ hx') with ⟨ys, hys, hall⟩
    exact ⟨y :: ys, by simp [hy, hys], .cons hrelated hall⟩

namespace DocumentSet

variable {source : String} {customTags : List String} {set : DocumentSet} {d : Document}

theorem stop_le_of_parse {root : Tree} (h : parse source customTags = .ok set)
    (hd : d ∈ set.documents) (hroot : d.root = some root) : root.extent.2 ≤ source.length := by
  have hnested := nested_of_parse h hd hroot
  rcases exists_range?_of_parse h hd hroot with ⟨hlaid, -⟩
  have hfirst : (⟨0, none, root⟩ : Tree.Visit) ∈ d.visits := by
    rw [Document.visits_of_root hroot, Tree.visits, Tree.visitsFrom_eq]
    exact List.mem_cons_self
  rcases hlaid.ranged _ hfirst (Tree.isPair_of_range? hnested.range?_eq) with
    ⟨_, e, -, he, -, -, hle⟩
  rw [hnested.range.2.1] at he
  cases he
  exact hle

theorem shows_of_complains {g : Graph} {root : Tree} {p : Tree.Place} {f : SchemaFinding}
    (h : parse source customTags = .ok set) (hd : d ∈ set.documents) (hroot : d.root = some root)
    (hp : p ∈ root.places) (hf : g.Complains p f) :
    ∃ shown, f.diagnostic? (Lines.ofText source) = some shown ∧ f.Shows source d shown := by
  have hnested := nested_of_parse h hd hroot
  have hsubject : p.node.isPair = true ∨ p.node.isScalar = true :=
    hf.subject.imp Tree.isPair_of_keyText? Tree.isScalar_of_scalarValue?
  rcases (hnested.settled hp).shownAt hsubject with ⟨hshown, hplace, hinside⟩
  rcases hplace.range with ⟨hstart, hstop, hle⟩
  have hsize := Nat.le_trans hinside.2 (stop_le_of_parse h hd hroot)
  refine ⟨_, SchemaFinding.diagnostic?_of_range (hf.start.trans hstart) (hf.stop.trans hstop) hle,
    ?_⟩
  constructor
  case place =>
    refine ⟨p.node, _, _, ?_, hshown, hf.start.trans hstart, hf.stop.trans hstop, hle, hsize, rfl,
      ?_, ?_⟩
    · rw [hf.node, Document.visits_of_root hroot]
      exact Tree.nodeAt?_place hp
    · exact fun hw => Tree.isPair_of_keyText? (hf.unknown hw)
    · exact fun hw => Tree.isScalar_of_scalarValue? (hf.mistyped hw)
  case wellFormed =>
    exact ⟨Range.positionAt_isOn _ _, Range.positionAt_isOn _ _,
      Range.positionAt_mono _ (Int.ofNat_le.2 hle)⟩
  case message => rfl
  case origin => rfl

/-- All findings of a schema about a document of a text have diagnostics, and each of them stands at
the node that the finding is about. -/
theorem schemaDiagnostics_of_parse (h : parse source customTags = .ok set) (hd : d ∈ set.documents)
    {g : Graph} {report : Graph.Report} (hreport : g.validate d = .ok report) :
    ∃ shown, report.findings.mapM (SchemaFinding.diagnostic? (Lines.ofText source)) = some shown ∧
      List.Forall₂ (SchemaFinding.Shows source d) report.findings shown := by
  refine exists_mapM_of_forall ?_
  intro f hf
  rcases Graph.exists_complains hreport hf with ⟨root, hroot, p, hp, hcomplains⟩
  exact shows_of_complains h hd hroot hp hcomplains

def quotaGraph : Graph :=
  ⟨[(.str "spec", [⟨.object, [.str "spec", .str "replicas"]⟩]),
    (.str "replicas", [⟨.integer, []⟩])]⟩

def quotaText : String :=
  "# quota\nspec:\n  replicas: many\r\n  ghost: [spec]\n"

/-- The word is found on the counted line 1 and shown on line 2. -/
theorem schemaDiagnostics_of_parse_quotaText :
    ∃ set d report, parse quotaText [] = .ok set ∧ d ∈ set.documents ∧
      quotaGraph.validate d = .ok report ∧
      report.findings.map (fun f => (f.node, f.warning, f.line)) =
        [(6, .typeMismatch, 1), (7, .unknownKey, 2)] ∧
      ∃ shown, report.findings.mapM (SchemaFinding.diagnostic? (Lines.ofText quotaText)) =
          some shown ∧
        shown.map (·.range) = [⟨⟨2, 12⟩, ⟨2, 16⟩⟩, ⟨⟨3, 2⟩, ⟨3, 7⟩⟩] ∧
        List.Forall₂ (SchemaFinding.Shows quotaText d) report.findings shown := by
  have hread : (do
      let set ← (parse quotaText []).toOption
      let d ← set.documents.head?
      let report ← (quotaGraph.validate d).toOption
      let shown ← report.findings.mapM (SchemaFinding.diagnostic? (Lines.ofText quotaText))
      return (report.findings.map (fun f => (f.node, f.warning, f.line)), shown.map (·.range))) =
      some ([(6, .typeMismatch, 1), (7, .unknownKey, 2)],
        [⟨⟨2, 12⟩, ⟨2, 16⟩⟩, ⟨⟨3, 2⟩, ⟨3, 7⟩⟩]) := by
    decide +kernel
  simp only [Option.bind_eq_bind, Option.bind_eq_some_iff] at hread
  rcases hread with ⟨set, hset, d, hhead, report, hvalid, shown, hshown, hpair⟩
  have hparse := Outcome.toOption_eq_some.1 hset
  have hd := List.mem_of_head? hhead
  have hreport := Outcome.toOption_eq_some.1 hvalid
  rcases schemaDiagnostics_of_parse hparse hd hreport with ⟨found, hfound, hall⟩
  rw [hshown] at hfound
  cases hfound
  simp only [Option.pure_def, Option.some.injEq, Prod.mk.injEq] at hpair
  exact ⟨set, d, report, hparse, hd, hreport, hpair.1, shown, hshown, hpair.2, hall⟩

end DocumentSet
end YamlServer
