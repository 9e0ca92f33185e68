import YamlServer.Proofs.Yaml.Assembly

/-!
# What aliases name

Every node is opened by an event, and the events that open the nodes of a document come in the order
of its walk. An anchor is noted with the event that carries it, before anything inside the node is
read, and all anchors are forgotten with the end of the document. So an alias names a node of its
own document that was opened before it, and this may be a collection that is still open.

* `Yaml.NodeReader.opened_root`: the nodes of a document resolve.
* `Yaml.Resolves.exists_anchored`, `Yaml.Resolves.nodup_anchors`: the target of an alias is the one
  node with its anchor, and comes before it.
-/

namespace YamlServer
namespace Yaml

def Node.target? : Node → Option Nat
  | .alias _ _ _ target => some target
  | _ => none

/-- A number is that of one of the nodes, and not of an alias. -/
def Holds (nodes : List Node) (id : Nat) : Prop :=
  ∃ n ∈ nodes, n.target? = none ∧ n.id = id

/-! ## Events that open nodes -/

namespace EventKind

def anchor? : EventKind → Option String
  | .scalar p _ _ | .sequenceStart p | .mappingStart p => p.anchor
  | _ => none

def isOpening : EventKind → Bool
  | .alias _ | .scalar .. | .sequenceStart _ | .mappingStart _ => true
  | _ => false

end EventKind

/-- An event and the node it opens, which starts with it and has what it says. -/
inductive Opens : Event → Node → Prop where
  | alias (id : Nat) (start stop : Mark) (name : String) (target : Nat) :
      Opens ⟨.alias name, start, stop⟩ (.alias id ⟨start, stop⟩ name target)
  | scalar (id : Nat) (start stop : Mark) (p : Properties) (content : String)
      (style : Option Style) :
      Opens ⟨.scalar p content style, start, stop⟩
        (.scalar id ⟨start, stop⟩ (NodeReader.scalarTag p content style) content style)
  | sequence (id : Nat) (start stop last : Mark) (p : Properties) (items : List Node) :
      Opens ⟨.sequenceStart p, start, stop⟩
        (.sequence id ⟨start, last⟩ (NodeReader.collectionTag p Tag.seq) items)
  | mapping (id : Nat) (start stop last : Mark) (p : Properties) (entries : List (Node × Node)) :
      Opens ⟨.mappingStart p, start, stop⟩
        (.mapping id ⟨start, last⟩ (NodeReader.collectionTag p Tag.map) entries)

namespace Opens

variable {e : Event} {n : Node}

theorem isOpening (h : Opens e n) : e.kind.isOpening = true := by
  cases h <;> rfl

theorem target?_of_anchor {name : String} (h : Opens e n) (hanchor : e.kind.anchor? = some name) :
    n.target? = none := by
  cases h with
  | «alias» => cases hanchor
  | _ => rfl

theorem kind_of_alias {id : Nat} {span : Span} {name : String} {target : Nat}
    (h : Opens e (.alias id span name target)) : e.kind = .alias name := by
  cases h
  rfl

end Opens

/-! ## Anchors along the walk -/

def note (anchors : List (String × Nat)) (opened : Event × Node) : List (String × Nat) :=
  match opened.1.kind.anchor? with
  | some name => (name, opened.2.id) :: anchors
  | none => anchors

/-- Nodes with the events that open them, read when some anchors are known: every anchor is new, and
every alias has the number known under its name. -/
def Resolves (anchors : List (String × Nat)) : List (Event × Node) → Prop
  | [] => True
  | opened :: rest =>
    (∀ name, opened.1.kind.anchor? = some name → anchors.lookup name = none) ∧
      (∀ name, opened.1.kind = .alias name → anchors.lookup name = opened.2.target?) ∧
      Resolves (note anchors opened) rest

theorem mem_note {anchors : List (String × Nat)} {opened : Event × Node} {x : String × Nat}
    (hx : x ∈ note anchors opened) :
    x ∈ anchors ∨ opened.1.kind.anchor? = some x.1 ∧ opened.2.id = x.2 := by
  rw [note] at hx
  split at hx
  · rename_i name hname
    rcases List.mem_cons.1 hx with rfl | hx
    · exact Or.inr ⟨hname, rfl⟩
    · exact Or.inl hx
  · exact Or.inl hx

theorem mem_notes {anchors : List (String × Nat)} {opened : List (Event × Node)} {x : String × Nat}
    (hx : x ∈ opened.foldl note anchors) :
    x ∈ anchors ∨ ∃ p ∈ opened, p.1.kind.anchor? = some x.1 ∧ p.2.id = x.2 := by
  induction opened generalizing anchors with
  | nil => exact Or.inl hx
  | cons first rest ih =>
    rcases ih hx with hx | ⟨p, hp, hanchor⟩
    · rcases mem_note hx with hx | hanchor
      · exact Or.inl hx
      · exact Or.inr ⟨first, List.mem_cons_self, hanchor⟩
    · exact Or.inr ⟨p, List.mem_cons_of_mem _ hp, hanchor⟩

theorem mem_of_lookup {anchors : List (String × Nat)} {name : String} {id : Nat}
    (h : anchors.lookup name = some id) : (name, id) ∈ anchors := by
  rcases List.lookup_eq_some_iff.1 h with ⟨before, rest, rfl, -⟩
  simp

namespace Resolves

variable {anchors : List (String × Nat)} {opened more before after : List (Event × Node)}

theorem append (h : Resolves anchors opened) (h' : Resolves (opened.foldl note anchors) more) :
    Resolves anchors (opened ++ more) := by
  induction opened generalizing anchors with
  | nil => exact h'
  | cons first rest ih => exact ⟨h.1, h.2.1, ih h.2.2 h'⟩

theorem right (h : Resolves anchors (opened ++ more)) :
    Resolves (opened.foldl note anchors) more := by
  induction opened generalizing anchors with
  | nil => exact h
  | cons first rest ih => exact ih h.2.2

/-- The target of an alias was opened before it, by an event with its name as anchor. -/
theorem exists_anchored {e : Event} {n : Node} {name : String} {target : Nat}
    (h : Resolves [] (before ++ (e, n) :: after)) (hkind : e.kind = .alias name)
    (htarget : n.target? = some target) :
    ∃ p ∈ before, p.1.kind.anchor? = some name ∧ p.2.id = target := by
  have hlookup := h.right.2.1 name hkind
  rw [htarget] at hlookup
  rcases mem_notes (mem_of_lookup hlookup) with hx | hanchored
  · cases hx
  · exact hanchored

theorem lookup_note {opened : Event × Node} {name : String}
    (h : (note anchors opened).lookup name = none) :
    anchors.lookup name = none ∧ opened.1.kind.anchor? ≠ some name := by
  rw [note] at h
  split at h
  · rename_i own hown
    rw [List.lookup_cons] at h
    cases hname : name == own with
    | true => simp [hname] at h
    | false =>
      rw [hname] at h
      refine ⟨h, ?_⟩
      rw [hown]
      rintro ⟨rfl⟩
      simp at hname
  · rename_i hnone
    exact ⟨h, by simp [hnone]⟩

/-- No two nodes have the same anchor, and none has one that is known. -/
theorem anchors_new (h : Resolves anchors opened) :
    (opened.filterMap (·.1.kind.anchor?)).Nodup ∧
      ∀ name ∈ opened.filterMap (·.1.kind.anchor?), anchors.lookup name = none := by
  induction opened generalizing anchors with
  | nil => exact ⟨List.nodup_nil, nofun⟩
  | cons first rest ih =>
    rcases h with ⟨hnew, -, hrest⟩
    rcases ih hrest with ⟨hnodup, hlater⟩
    cases hanchor : first.1.kind.anchor? with
    | none =>
      simp only [List.filterMap_cons, hanchor]
      exact ⟨hnodup, fun name hname => (lookup_note (hlater name hname)).1⟩
    | some own =>
      simp only [List.filterMap_cons, hanchor]
      refine ⟨List.nodup_cons.2 ⟨?_, hnodup⟩, ?_⟩
      · intro hmem
        exact (lookup_note (hlater own hmem)).2 hanchor
      · intro name hname
        rcases List.mem_cons.1 hname with rfl | hname
        · exact hnew name hanchor
        · exact (lookup_note (hlater name hname)).1

theorem nodup_anchors (h : Resolves anchors opened) :
    (opened.filterMap (·.1.kind.anchor?)).Nodup :=
  h.anchors_new.1

end Resolves

/-! ## Composing -/

namespace NodeReader

/-- Nodes were read: the events passed open them in order, and the anchors resolve. -/
structure Opened (c after : NodeReader) (opened : List (Event × Node)) : Prop where
  passed : ∃ own, c.events = own ++ after.events ∧
    own.filter (·.kind.isOpening) = opened.map (·.1)
  opens : ∀ p ∈ opened, Opens p.1 p.2
  resolves : Resolves c.anchors opened
  anchors : after.anchors = opened.foldl note c.anchors

namespace Opened

variable {c between after : NodeReader} {opened more : List (Event × Node)}

theorem append (h : Opened c between opened) (h' : Opened between after more) :
    Opened c after (opened ++ more) := by
  rcases h.passed with ⟨own, hown, hopened⟩
  rcases h'.passed with ⟨own', hown', hmore⟩
  refine ⟨⟨own ++ own', ?_, ?_⟩, ?_, h.resolves.append (h.anchors ▸ h'.resolves), ?_⟩
  · rw [hown, hown', List.append_assoc]
  · rw [List.filter_append, hopened, hmore, List.map_append]
  · intro p hp
    exact (List.mem_append.1 hp).elim (h.opens p) (h'.opens p)
  · rw [h'.anchors, h.anchors, List.foldl_append]

/-- An event that opens no node, passed at the end of a collection. -/
theorem passing {e : Event} {rest : List Event} (hc : c.events = e :: rest)
    (he : e.kind.isOpening = false) : Opened c { c with events := rest } [] :=
  ⟨⟨[e], hc, by simp [he]⟩, nofun, trivial, rfl⟩

/-- An event that opens a node: what is read after it is inside the node. -/
theorem cons {e : Event} {n : Node} (h : Opened between after opened) (hopens : Opens e n)
    (hinside : c.events = e :: between.events) (hnoted : between.anchors = note c.anchors (e, n))
    (hnew : ∀ name, e.kind.anchor? = some name → c.anchors.lookup name = none)
    (htarget : ∀ name, e.kind = .alias name → c.anchors.lookup name = n.target?) :
    Opened c after ((e, n) :: opened) := by
  rcases h.passed with ⟨own, hown, hopened⟩
  refine ⟨⟨e :: own, ?_, ?_⟩, ?_, ⟨hnew, htarget, hnoted ▸ h.resolves⟩, ?_⟩
  · rw [hinside, hown, List.cons_append]
  · simp only [List.filter_cons, hopens.isOpening, if_true, hopened, List.map_cons]
  · intro p hp
    rcases List.mem_cons.1 hp with rfl | hp
    · exact hopens
    · exact h.opens p hp
  · rw [h.anchors, hnoted, List.foldl_cons]

theorem refl (c : NodeReader) : Opened c c [] :=
  ⟨⟨[], rfl, rfl⟩, nofun, trivial, rfl⟩

end Opened

/-- What is assembled is opened by the events it passes. -/
theorem Assembles.opened {c after : NodeReader} {p : Piece} (h : Assembles c p after) :
    ∃ opened, opened.map (·.2) = p.walk ∧ Opened c after opened := by
  induction h with
  | «alias» hknown =>
    refine ⟨[(_, _)], rfl, (Opened.refl _).cons (.alias ..) rfl rfl nofun ?_⟩
    rintro _ ⟨rfl⟩
    exact hknown
  | scalar hnew => exact ⟨[(_, _)], rfl, (Opened.refl _).cons (.scalar ..) rfl rfl hnew nofun⟩
  | sequence hnew _ ih =>
    rcases ih with ⟨opened, hwalk, hopened⟩
    exact ⟨(_, _) :: opened, congrArg _ hwalk, hopened.cons (.sequence ..) rfl rfl hnew nofun⟩
  | mapping hnew _ ih =>
    rcases ih with ⟨opened, hwalk, hopened⟩
    exact ⟨(_, _) :: opened, congrArg _ hwalk, hopened.cons (.mapping ..) rfl rfl hnew nofun⟩
  | noItem | noEntry => exact ⟨[], rfl, Opened.passing rfl rfl⟩
  | item _ _ hitem hmore =>
    rcases hitem with ⟨opened, hwalk, hopened⟩
    rcases hmore with ⟨others, hothers, hlater⟩
    refine ⟨opened ++ others, ?_, hopened.append hlater⟩
    rw [List.map_append, hwalk, hothers]
    rfl
  | entry _ _ _ hkey hvalue hmore =>
    rcases hkey with ⟨opened, hwalk, hopened⟩
    rcases hvalue with ⟨opened', hwalk', hopened'⟩
    rcases hmore with ⟨others, hothers, hlater⟩
    refine ⟨opened ++ opened' ++ others, ?_, (Opened.append ?_ hopened').append hlater⟩
    · rw [List.map_append, List.map_append, hwalk, hwalk', hothers]
      rfl
    -- The number that the pair takes is neither an event nor an anchor.
    · exact ⟨hopened.passed, hopened.opens, hopened.resolves, hopened.anchors⟩

/-- The nodes of a composed document, with the events that open them. -/
theorem opened_root {events : List Event} {n : Node} {after : NodeReader}
    (h : root events = .ok (n, after)) :
    ∃ opened, opened.map (·.2) = n.walk ∧ Opened ⟨events, 0, []⟩ after opened :=
  (assembles_root h).opened

/-- Composing leaves the events that it has not passed. -/
theorem suffix_root {events : List Event} {n : Node} {after : NodeReader}
    (h : root events = .ok (n, after)) : after.events <:+ events := by
  rcases opened_root h with ⟨opened, -, hopened⟩
  rcases hopened.passed with ⟨own, hown, -⟩
  exact ⟨own, hown.symm⟩

/-- Every alias of a composed document names one of its nodes. -/
theorem exists_target {events : List Event} {n m : Node} {after : NodeReader} {target : Nat}
    (h : root events = .ok (n, after)) (hm : m ∈ n.walk) (htarget : m.target? = some target) :
    Holds n.walk target := by
  rcases opened_root h with ⟨opened, hwalk, hopened⟩
  rw [← hwalk] at hm ⊢
  rcases List.mem_map.1 hm with ⟨⟨e, m⟩, hp, rfl⟩
  have hopens := hopened.opens _ hp
  cases m with
  | «alias» id span name target' =>
    rcases List.append_of_mem hp with ⟨before, rest, rfl⟩
    rcases hopened.resolves.exists_anchored hopens.kind_of_alias htarget with
      ⟨q, hq, hanchor, hid⟩
    have hq' := List.mem_append_left ((e, .alias id span name target') :: rest) hq
    exact ⟨q.2, List.mem_map_of_mem hq', (hopened.opens q hq').target?_of_anchor hanchor, hid⟩
  | _ => cases htarget

end NodeReader
end Yaml
end YamlServer
