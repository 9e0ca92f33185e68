import YamlServer.Proofs.Yaml.Assembly
import YamlServer.Proofs.Yaml.EventOrder

/-!
# Composed nodes lie inside each other

Composing reads events that stand in order, so the nodes right below a node stand in order inside
it: the items of a sequence one after the other, the keys and values of a mapping in turn.

* `Composed.placed_ofEvents`: every document of an event stream is placed.
-/

namespace YamlServer
namespace Yaml

def Node.extent (n : Node) : Nat × Nat :=
  (n.span.start.index, n.span.stop.index)

/-- A node starts before it stops, and holds the nodes below it in order. -/
inductive Node.Nested : Node → Prop where
  | scalar (id : Nat) (span : Span) (tag content : String) (style : Option Style) :
      span.start.index ≤ span.stop.index → Node.Nested (.scalar id span tag content style)
  | alias (id : Nat) (span : Span) (anchor : String) (target : Nat) :
      span.start.index ≤ span.stop.index → Node.Nested (.alias id span anchor target)
  | sequence (id : Nat) (span : Span) (tag : String) (items : List Node) :
      InOrder Node.extent span.start.index span.stop.index items →
      (∀ n ∈ items, Node.Nested n) → Node.Nested (.sequence id span tag items)
  | mapping (id : Nat) (span : Span) (tag : String) (entries : List (Node × Node)) :
      InOrder Node.extent span.start.index span.stop.index (Node.sides entries) →
      (∀ n ∈ Node.sides entries, Node.Nested n) → Node.Nested (.mapping id span tag entries)

theorem Node.Nested.le {n : Node} (h : n.Nested) : n.extent.1 ≤ n.extent.2 := by
  cases h with
  | scalar id span tag content style hspan => exact hspan
  | «alias» id span anchor target hspan => exact hspan
  | sequence id span tag items hitems _ => exact hitems.le
  | mapping id span tag entries hentries _ => exact hentries.le

namespace NodeReader

/-- From events that stand in order between `lo` and `hi`, nodes were composed that stand in order
up to `stop`, and the events left stand after it. -/
structure Composes (lo hi : Nat) (nodes : List Node) (stop : Nat) (after : NodeReader) : Prop where
  inOrder : InOrder Node.extent lo stop nodes
  nested : ∀ n ∈ nodes, n.Nested
  events : InOrder Event.extent stop hi after.events

namespace Composes

variable {lo hi : Nat}

/-- One node that was composed, from its start on. -/
theorem single {n : Node} {after : NodeReader} (hn : n.Nested) (hlo : lo ≤ n.extent.1)
    (hafter : InOrder Event.extent n.extent.2 hi after.events) :
    Composes lo hi [n] n.extent.2 after := by
  refine ⟨inOrder_cons.2 ⟨hlo, hn.le, inOrder_nil.2 (Nat.le_refl _)⟩, ?_, hafter⟩
  intro m hm
  rcases List.mem_singleton.1 hm with rfl
  exact hn

theorem append {nodes more : List Node} {mid stop : Nat} {between after : NodeReader}
    (h : Composes lo hi nodes mid between) (h' : Composes mid hi more stop after) :
    Composes lo hi (nodes ++ more) stop after := by
  refine ⟨h.inOrder.append h'.inOrder, ?_, h'.events⟩
  intro n hn
  rcases List.mem_append.1 hn with hn | hn
  · exact h.nested n hn
  · exact h'.nested n hn

end Composes

/-- An event that closes a collection stops it. -/
theorem composes_end {lo hi : Nat} {e : Event} {rest : List Event} {after : NodeReader}
    (h : InOrder Event.extent lo hi (e :: rest)) (hafter : after.events = rest) :
    Composes lo hi [] e.stop.index after := by
  rcases inOrder_cons.1 h with ⟨hstart, hstop, hrest⟩
  refine ⟨inOrder_nil.2 (Nat.le_trans hstart hstop), ?_, ?_⟩
  · intro n hn
    cases hn
  · rw [hafter]
    exact hrest

/-- What is assembled from events in order is composed in order. -/
theorem Assembles.composes {lo hi : Nat} {c after : NodeReader} {p : Piece}
    (h : Assembles c p after) (hevents : InOrder Event.extent lo hi c.events) :
    Composes lo hi p.nodes p.stop.index after := by
  induction h generalizing lo with
  | «alias» =>
    rcases inOrder_cons.1 hevents with ⟨hstart, hstop, hrest⟩
    exact Composes.single (Node.Nested.alias _ _ _ _ hstop) hstart hrest
  | scalar =>
    rcases inOrder_cons.1 hevents with ⟨hstart, hstop, hrest⟩
    exact Composes.single (Node.Nested.scalar _ _ _ _ _ hstop) hstart hrest
  | sequence _ _ ih =>
    rcases inOrder_cons.1 hevents with ⟨hstart, hstop, hrest⟩
    have hinside := ih hrest
    exact Composes.single (Node.Nested.sequence _ _ _ _
      (hinside.inOrder.mono hstop (Nat.le_refl _)) hinside.nested) hstart hinside.events
  | mapping _ _ ih =>
    rcases inOrder_cons.1 hevents with ⟨hstart, hstop, hrest⟩
    have hinside := ih hrest
    exact Composes.single (Node.Nested.mapping _ _ _ _
      (hinside.inOrder.mono hstop (Nat.le_refl _)) hinside.nested) hstart hinside.events
  | noItem => exact composes_end hevents rfl
  | item _ _ hitem hmore =>
    have hfirst := hitem hevents
    exact hfirst.append (hmore hfirst.events)
  | noEntry => exact composes_end hevents rfl
  | entry _ _ _ hkey hvalue hmore =>
    have hfirst := hkey hevents
    -- The value is read from the events that the key leaves.
    have hsecond := hvalue hfirst.events
    exact (hfirst.append hsecond).append (hmore hsecond.events)

end NodeReader

namespace Composed

/-- The root lies between the document's start and the end of the text. -/
def Placed (size : Nat) (c : Composed) : Prop :=
  ∀ n, c.root = some n → n.Nested ∧ c.start ≤ n.extent.1 ∧ n.extent.2 ≤ size

/-- The documents of a stream whose events stand in order are placed in the text. -/
theorem placed_ofEvents {lo size : Nat} {s : EventStream}
    (h : InOrder Event.extent lo size s.events) : ∀ c ∈ ofEvents size s, c.Placed size := by
  intro c hc
  have hread : ReadFrom (fun events => ∃ lo, InOrder Event.extent lo size events) size c := by
    refine readFrom_of_mem ⟨lo, h⟩ ?_ hc
    rintro e rest n after stop more ⟨lo', h'⟩ - hroot hafter
    have hmore := ((NodeReader.assembles_root hroot).composes (inOrder_cons.1 h').2.2).events
    rw [hafter, inOrder_cons] at hmore
    exact ⟨_, hmore.2.2⟩
  cases hread with
  | rootless =>
    intro n hn
    cases hn
  | rooted hinv _ hroot _ =>
    rintro _ ⟨⟩
    rcases hinv with ⟨lo', h'⟩
    rcases inOrder_cons.1 h' with ⟨-, hstop, hrest⟩
    have hcomposes := (NodeReader.assembles_root hroot).composes hrest
    -- The root starts after the document does, and stops before the events left over.
    have hinside := hcomposes.inOrder.inside _ List.mem_cons_self
    exact ⟨hcomposes.nested _ List.mem_cons_self, Nat.le_trans hstop hinside.1,
      hcomposes.events.le⟩

end Composed
end Yaml
end YamlServer
