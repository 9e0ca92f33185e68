import YamlServer.Proofs.Outcome
import YamlServer.Yaml.Node

/-!
# How nodes are assembled from events

The three readers of nodes call each other with a step less each time. What they come to, whatever
the number of steps, is a relation with a rule for each kind of node and two for each kind of
collection: its end, and what comes before it.

* `NodeReader.assembles_root`: the root of a document is assembled from its events.
* `Composed.readFrom_of_mem`: where each document of a stream is read.
-/

namespace YamlServer
namespace Yaml

def Node.sides (entries : List (Node × Node)) : List Node :=
  entries.flatMap fun e => [e.1, e.2]

/-- What is read in one go: a node, or what a collection holds up to the mark where it ends. -/
inductive Piece where
  | node (n : Node)
  | items (ns : List Node) (stop : Mark)
  | entries (es : List (Node × Node)) (stop : Mark)

namespace Piece

def nodes : Piece → List Node
  | .node n => [n]
  | .items ns _ => ns
  | .entries es _ => Node.sides es

def walk : Piece → List Node
  | .node n => n.walk
  | .items ns _ => Node.walkItems ns
  | .entries es _ => Node.walkEntries es

def stop : Piece → Mark
  | .node n => n.span.stop
  | .items _ stop | .entries _ stop => stop

end Piece

namespace NodeReader

/-- From one state of the reader, a piece is assembled and another state is left. -/
inductive Assembles : NodeReader → Piece → NodeReader → Prop where
  | alias {rest : List Event} {next : Nat} {anchors : List (String × Nat)} {start stop : Mark}
      {name : String} {target : Nat} (hknown : anchors.lookup name = some target) :
      Assembles ⟨⟨.alias name, start, stop⟩ :: rest, next, anchors⟩
        (.node (.alias next ⟨start, stop⟩ name target)) ⟨rest, next + 1, anchors⟩
  | scalar {rest : List Event} {next : Nat} {anchors : List (String × Nat)} {start stop : Mark}
      {p : Properties} {content : String} {style : Option Style}
      (hnew : ∀ name, p.anchor = some name → anchors.lookup name = none) :
      Assembles ⟨⟨.scalar p content style, start, stop⟩ :: rest, next, anchors⟩
        (.node (.scalar next ⟨start, stop⟩ (scalarTag p content style) content style))
        (number p.anchor ⟨rest, next, anchors⟩).2
  | sequence {rest : List Event} {next : Nat} {anchors : List (String × Nat)}
      {start stop last : Mark} {p : Properties} {ns : List Node} {after : NodeReader}
      (hnew : ∀ name, p.anchor = some name → anchors.lookup name = none)
      (hitems : Assembles (number p.anchor ⟨rest, next, anchors⟩).2 (.items ns last) after) :
      Assembles ⟨⟨.sequenceStart p, start, stop⟩ :: rest, next, anchors⟩
        (.node (.sequence next ⟨start, last⟩ (collectionTag p Tag.seq) ns)) after
  | mapping {rest : List Event} {next : Nat} {anchors : List (String × Nat)}
      {start stop last : Mark} {p : Properties} {es : List (Node × Node)} {after : NodeReader}
      (hnew : ∀ name, p.anchor = some name → anchors.lookup name = none)
      (hentries : Assembles (number p.anchor ⟨rest, next, anchors⟩).2 (.entries es last) after) :
      Assembles ⟨⟨.mappingStart p, start, stop⟩ :: rest, next, anchors⟩
        (.node (.mapping next ⟨start, last⟩ (collectionTag p Tag.map) es)) after
  | noItem {rest : List Event} {next : Nat} {anchors : List (String × Nat)} {start stop : Mark} :
      Assembles ⟨⟨.sequenceEnd, start, stop⟩ :: rest, next, anchors⟩ (.items [] stop)
        ⟨rest, next, anchors⟩
  | item {c between after : NodeReader} {n : Node} {ns : List Node} {stop : Mark}
      (hitem : Assembles c (.node n) between) (hmore : Assembles between (.items ns stop) after) :
      Assembles c (.items (n :: ns) stop) after
  | noEntry {rest : List Event} {next : Nat} {anchors : List (String × Nat)} {start stop : Mark} :
      Assembles ⟨⟨.mappingEnd, start, stop⟩ :: rest, next, anchors⟩ (.entries [] stop)
        ⟨rest, next, anchors⟩
  -- A pair takes a number before its key.
  | entry {c between between' after : NodeReader} {k v : Node} {es : List (Node × Node)}
      {stop : Mark} (hkey : Assembles { c with next := c.next + 1 } (.node k) between)
      (hvalue : Assembles between (.node v) between')
      (hmore : Assembles between' (.entries es stop) after) :
      Assembles c (.entries ((k, v) :: es) stop) after

/-- What a reader with the given number of steps gives is assembled. -/
structure Assembling (fuel : Nat) : Prop where
  node : ∀ {c after : NodeReader} {n : Node}, NodeReader.node fuel c = .ok (n, after) →
    Assembles c (.node n) after
  items : ∀ {c after : NodeReader} {ns : List Node} {stop : Mark},
    NodeReader.items fuel c = .ok (ns, stop, after) → Assembles c (.items ns stop) after
  entries : ∀ {c after : NodeReader} {es : List (Node × Node)} {stop : Mark},
    NodeReader.entries fuel c = .ok (es, stop, after) → Assembles c (.entries es stop) after

theorem lookup_of_requireNew {p : Properties} {e : Event} {c : NodeReader} {u : Unit}
    (h : requireNew p e c = .ok u) (name : String) (hname : p.anchor = some name) :
    c.anchors.lookup name = none := by
  rw [requireNew, hname] at h
  dsimp only at h
  split at h
  · cases h
  · rename_i hknown
    exact Option.not_isSome_iff_eq_none.1 hknown

section

variable {fuel : Nat} {c after : NodeReader} {stop : Mark}

theorem assembles_node {n : Node} (ih : Assembling fuel) (h : node (fuel + 1) c = .ok (n, after)) :
    Assembles c (.node n) after := by
  rcases c with ⟨events, next, anchors⟩
  rw [node] at h
  cases events with
  | nil => cases h
  | cons e rest =>
    rcases e with ⟨kind, start, stop⟩
    dsimp only at h
    -- An alias, a scalar, a sequence, a mapping, or an event that opens no node.
    split at h
    · split at h
      · cases h
      · rename_i target hknown
        cases h
        exact .alias hknown
    · rcases Outcome.bind_eq_ok.1 h with ⟨_, hnew, hrun⟩
      cases hrun
      exact .scalar (lookup_of_requireNew hnew)
    · rcases Outcome.bind_eq_ok.1 h with ⟨_, hnew, hrun⟩
      rcases Outcome.bind_eq_ok.1 hrun with ⟨⟨ns, last, inner⟩, hitems, hlast⟩
      cases hlast
      exact .sequence (lookup_of_requireNew hnew) (ih.items hitems)
    · rcases Outcome.bind_eq_ok.1 h with ⟨_, hnew, hrun⟩
      rcases Outcome.bind_eq_ok.1 hrun with ⟨⟨es, last, inner⟩, hentries, hlast⟩
      cases hlast
      exact .mapping (lookup_of_requireNew hnew) (ih.entries hentries)
    · cases h

theorem assembles_items {ns : List Node} (ih : Assembling fuel)
    (h : items (fuel + 1) c = .ok (ns, stop, after)) : Assembles c (.items ns stop) after := by
  rcases c with ⟨events, next, anchors⟩
  rw [items] at h
  cases events with
  | nil => cases h
  | cons e rest =>
    rcases e with ⟨kind, start, stop⟩
    dsimp only at h
    split at h
    · rename_i hend
      cases beq_iff_eq.1 hend
      cases h
      exact .noItem
    · rcases Outcome.bind_eq_ok.1 h with ⟨⟨item, between⟩, hitem, hrest⟩
      rcases Outcome.bind_eq_ok.1 hrest with ⟨⟨more, last, inner⟩, hmore, hlast⟩
      cases hlast
      exact .item (ih.node hitem) (ih.items hmore)

theorem assembles_entries {es : List (Node × Node)} (ih : Assembling fuel)
    (h : entries (fuel + 1) c = .ok (es, stop, after)) : Assembles c (.entries es stop) after := by
  rcases c with ⟨events, next, anchors⟩
  rw [entries] at h
  cases events with
  | nil => cases h
  | cons e rest =>
    rcases e with ⟨kind, start, stop⟩
    dsimp only at h
    split at h
    · rename_i hend
      cases beq_iff_eq.1 hend
      cases h
      exact .noEntry
    · rcases Outcome.bind_eq_ok.1 h with ⟨⟨key, between⟩, hkey, hrest⟩
      rcases Outcome.bind_eq_ok.1 hrest with ⟨⟨value, between'⟩, hvalue, hrest'⟩
      rcases Outcome.bind_eq_ok.1 hrest' with ⟨⟨more, last, inner⟩, hmore, hlast⟩
      cases hlast
      exact .entry (ih.node hkey) (ih.node hvalue) (ih.entries hmore)

end

/-- What is read is assembled, whatever the number of steps. -/
theorem assembling (fuel : Nat) : Assembling fuel := by
  -- The three readers call each other with a step less, so one induction serves them all.
  induction fuel with
  | zero => exact ⟨nofun, nofun, nofun⟩
  | succ fuel ih => exact ⟨assembles_node ih, assembles_items ih, assembles_entries ih⟩

theorem assembles_root {events : List Event} {n : Node} {after : NodeReader}
    (h : root events = .ok (n, after)) : Assembles ⟨events, 0, []⟩ (.node n) after :=
  (assembling _).node h

end NodeReader

/-! ## Documents -/

namespace Composed

/-- A document that has no root and goes to the end of the text, or one that was read after the
event `e`: up to the event behind its root, or to the end of the text if there is none. `I` holds of
the events from `e` on. -/
inductive ReadFrom (I : List Event → Prop) (size : Nat) : Composed → Prop where
  | rootless {start : Nat} {fault : Option Fault} : ReadFrom I size ⟨none, start, size, fault⟩
  | rooted {e : Event} {rest : List Event} {n : Node} {after : NodeReader} {stop : Nat}
      {fault : Option Fault} (hinv : I (e :: rest)) (hkind : e.kind ≠ .streamEnd)
      (hroot : NodeReader.root rest = .ok (n, after))
      (hstop : stop = size ∨ ∃ last more, after.events = last :: more ∧ stop = last.stop.index) :
      ReadFrom I size ⟨some n, e.start.index, stop, fault⟩

/-- What holds of the events at the start of a stream and goes on from one document to the next
holds wherever a document is read. -/
theorem readFrom_of_mem {I : List Event → Prop} {size : Nat} {halt : Option Halt} {fuel : Nat}
    {events : List Event} {c : Composed} (h : I events)
    (hnext : ∀ e rest n after stop more, I (e :: rest) → e.kind ≠ .streamEnd →
      NodeReader.root rest = .ok (n, after) → after.events = stop :: more → I more)
    (hc : c ∈ ofEventsFrom size halt fuel events) : ReadFrom I size c := by
  induction fuel generalizing events with
  | zero => cases hc
  | succ fuel ih =>
    cases events with
    | nil =>
      rcases Option.map_eq_some_iff.1 (Option.mem_toList.1 hc) with ⟨f, -, rfl⟩
      exact .rootless
    | cons e rest =>
      rw [ofEventsFrom] at hc
      split at hc
      · cases hc
      · rename_i hkind
        have hkind' : e.kind ≠ .streamEnd := fun heq => hkind (beq_iff_eq.2 heq)
        split at hc
        · rcases List.mem_singleton.1 hc with rfl
          exact .rootless
        · rcases List.mem_singleton.1 hc with rfl
          exact .rootless
        · rename_i n after hroot
          split at hc
          · rcases List.mem_singleton.1 hc with rfl
            exact .rooted h hkind' hroot (Or.inl rfl)
          -- The next document is read from the events after the end of this one.
          · rename_i stop more hafter
            rcases List.mem_cons.1 hc with rfl | hc
            · exact .rooted h hkind' hroot (Or.inr ⟨stop, more, hafter, rfl⟩)
            · exact ih (hnext e rest n after stop more h hkind' hroot hafter) hc

end Composed
end Yaml
end YamlServer
