import YamlServer.Proofs.Tree.Scalars
import YamlServer.Proofs.Yaml.EventGap
import YamlServer.Proofs.Yaml.NodeOrder

/-!
# The parts of a composed collection stand apart

The nodes below a node stand in order, and an empty node may touch its neighbours. The items of a
sequence do not touch each other, and neither do the values of a mapping, although a key may touch
the value before it.

* `Node.parts`: the items of a sequence, or the values of a mapping.
* `Composed.parted_ofEvents`: every document of an event stream is.
-/

namespace YamlServer
namespace Yaml

/-- Ranges that start after `lo`, and each after the one before it stops. -/
def Stepped (lo : Nat) : List (Nat × Nat) → Prop
  | [] => True
  | r :: rest => lo < r.1 ∧ r.1 ≤ r.2 ∧ Stepped r.2 rest

/-- All of them start after `lo`, and after every one before them. -/
theorem Stepped.apart {lo : Nat} {rs : List (Nat × Nat)} (h : Stepped lo rs) :
    (∀ r ∈ rs, lo < r.1) ∧ rs.Pairwise fun r s => r.2 < s.1 := by
  induction rs generalizing lo with
  | nil =>
    refine ⟨?_, List.Pairwise.nil⟩
    intro r hr
    cases hr
  | cons r rs ih =>
    rcases h with ⟨hlo, hle, hrest⟩
    rcases ih hrest with ⟨hafter, hpairwise⟩
    refine ⟨?_, List.pairwise_cons.2 ⟨hafter, hpairwise⟩⟩
    intro r' hr'
    rcases List.mem_cons.1 hr' with rfl | hr'
    · exact hlo
    · exact Nat.lt_trans hlo (Nat.lt_of_le_of_lt hle (hafter r' hr'))

namespace Node

def parts : Node → List Node
  | .sequence _ _ _ items => items
  | .mapping _ _ _ entries => entries.map (·.2)
  | _ => []

/-- The parts of every collection are stepped, from where the collection starts. -/
def Parted (n : Node) : Prop :=
  ∀ m ∈ n.walk, Stepped m.extent.1 (m.parts.map extent)

theorem parted_leaf {n : Node} (hwalk : n.walk = [n]) (hparts : n.parts = []) : n.Parted := by
  intro m hm
  rw [hwalk] at hm
  rcases List.mem_singleton.1 hm with rfl
  rw [hparts]
  trivial

theorem parted_sequence {id : Nat} {span : Span} {tag : String} {items : List Node}
    (h : Stepped span.start.index (items.map extent)) (hitems : ∀ n ∈ items, n.Parted) :
    (Node.sequence id span tag items).Parted := by
  intro m hm
  rw [walk, walkItems_eq] at hm
  rcases List.mem_cons.1 hm with rfl | hm
  · exact h
  · rcases List.mem_flatMap.1 hm with ⟨n, hn, hm⟩
    exact hitems n hn m hm

theorem parted_mapping {id : Nat} {span : Span} {tag : String} {entries : List (Node × Node)}
    (h : Stepped span.start.index (entries.map (·.2.extent)))
    (hsides : ∀ e ∈ entries, e.1.Parted ∧ e.2.Parted) :
    (Node.mapping id span tag entries).Parted := by
  intro m hm
  rw [walk, walkEntries_eq] at hm
  rcases List.mem_cons.1 hm with rfl | hm
  · rw [parts, List.map_map]
    exact h
  · rcases List.mem_flatMap.1 hm with ⟨e, he, hm⟩
    rcases List.mem_append.1 hm with hm | hm
    · exact (hsides e he).1 m hm
    · exact (hsides e he).2 m hm

end Node

namespace Piece

def frame : Piece → Frame
  | .node _ => .node
  | .items .. => .items
  | .entries .. => .entries

/-- The nodes of a piece are parted, and those of a collection stepped from the floor on. -/
def Parted (floor : Nat) : Piece → Prop
  | .node n => n.Parted
  | .items ns _ => Stepped floor (ns.map Node.extent) ∧ ∀ n ∈ ns, n.Parted
  | .entries es _ => Stepped floor (es.map (·.2.extent)) ∧ ∀ e ∈ es, e.1.Parted ∧ e.2.Parted

end Piece

namespace NodeReader

/-- A node starts with its first event, which closes no collection, and stops after it. -/
theorem Assembles.first {lo hi : Nat} {c after : NodeReader} {n : Node}
    (h : Assembles c (.node n) after) (hevents : InOrder Event.extent lo hi c.events) :
    ∃ e rest, c.events = e :: rest ∧ e.kind ≠ .sequenceEnd ∧ e.kind ≠ .mappingEnd ∧
      n.extent.1 = e.start.index ∧ e.stop.index ≤ n.extent.2 := by
  cases h with
  | «alias» | scalar => exact ⟨_, _, rfl, nofun, nofun, rfl, Nat.le_refl _⟩
  -- A collection stops after its contents, which stand after its first event.
  | sequence _ hinside | mapping _ hinside =>
    have hle := (hinside.composes (inOrder_cons.1 hevents).2.2).inOrder.le
    exact ⟨_, _, rfl, nofun, nofun, rfl, hle⟩

/-- What is assembled from spread events is parted. -/
theorem Assembles.parted {floor lo hi : Nat} {due : List Frame} {c after : NodeReader} {p : Piece}
    (h : Assembles c p after) (hevents : InOrder Event.extent lo hi c.events)
    (hspread : Spread (p.frame :: due) floor c.events) :
    p.Parted floor ∧ Spread due p.stop.index after.events := by
  induction h generalizing floor lo due with
  | «alias» | scalar => exact ⟨Node.parted_leaf rfl rfl, hspread.node rfl⟩
  -- What a collection holds is spread from its start on.
  | sequence _ _ ih =>
    rcases ih (inOrder_cons.1 hevents).2.2 (hspread.node rfl) with ⟨⟨hstepped, hparted⟩, hafter⟩
    exact ⟨Node.parted_sequence hstepped hparted, hafter⟩
  | mapping _ _ ih =>
    rcases ih (inOrder_cons.1 hevents).2.2 (hspread.node rfl) with ⟨⟨hstepped, hparted⟩, hafter⟩
    exact ⟨Node.parted_mapping hstepped hparted, hafter⟩
  | noItem => exact ⟨⟨trivial, nofun⟩, hspread.itemsEnd rfl⟩
  | item hitem _ ihitem ihmore =>
    rcases hitem.first hevents with ⟨e, rest, hc, hopen, -, hstart, -⟩
    rw [hc] at hspread
    rcases hspread.item hopen with ⟨hgap, hnode⟩
    rw [← hc] at hnode
    have hfirst := hitem.composes hevents
    rcases ihitem hevents hnode with ⟨hparted, hbetween⟩
    rcases ihmore hfirst.events hbetween with ⟨⟨hstepped, hothers⟩, hafter⟩
    -- The item starts with the event at hand, so the gap of that event is its own.
    have hle := (hfirst.nested _ List.mem_cons_self).le
    exact ⟨⟨⟨hstart ▸ hgap, hle, hstepped⟩, List.forall_mem_cons.2 ⟨hparted, hothers⟩⟩, hafter⟩
  | noEntry => exact ⟨⟨trivial, nofun⟩, hspread.entriesEnd rfl⟩
  | entry hkey hvalue _ ihkey ihvalue ihmore =>
    rcases hkey.first hevents with ⟨e, rest, hc, -, hopen, -, hstop⟩
    rw [hc] at hspread
    rcases hspread.key hopen with ⟨hgap, hnode⟩
    rw [← hc] at hnode
    have hfirst := hkey.composes hevents
    have hsecond := hvalue.composes hfirst.events
    rcases ihkey hevents hnode with ⟨hkeyParted, hbetween⟩
    rcases ihvalue hfirst.events hbetween with ⟨hvalueParted, hbetween'⟩
    rcases ihmore hsecond.events hbetween' with ⟨⟨hstepped, hothers⟩, hafter⟩
    -- The value starts after its key, which stops after the floor.
    have hlater := (hsecond.inOrder.inside _ List.mem_cons_self).1
    have hlt := Nat.lt_of_lt_of_le hgap (Nat.le_trans hstop hlater)
    have hle := (hsecond.nested _ List.mem_cons_self).le
    exact ⟨⟨⟨hlt, hle, hstepped⟩,
      List.forall_mem_cons.2 ⟨⟨hkeyParted, hvalueParted⟩, hothers⟩⟩, hafter⟩

end NodeReader

namespace Composed

/-- The roots of a stream whose events are spread are parted. -/
theorem parted_ofEvents {floor lo size : Nat} {s : EventStream}
    (h : InOrder Event.extent lo size s.events) (hspread : Spread [.stream] floor s.events) :
    ∀ c ∈ ofEvents size s, ∀ n, c.root = some n → n.Parted := by
  intro c hc n hn
  have hread : ReadFrom (fun events => (∃ lo, InOrder Event.extent lo size events) ∧
      ∃ floor, Spread [.stream] floor events) size c := by
    refine readFrom_of_mem ⟨⟨lo, h⟩, floor, hspread⟩ ?_ hc
    rintro e rest n after stop more ⟨⟨lo', h'⟩, floor', hspread'⟩ - hroot hafter
    have hassembled := NodeReader.assembles_root hroot
    have hrest := (inOrder_cons.1 h').2.2
    have hmore := (hassembled.composes hrest).events
    rw [hafter, inOrder_cons] at hmore
    have hend := (hassembled.parted hrest hspread'.document).2
    rw [hafter] at hend
    exact ⟨⟨_, hmore.2.2⟩, _, hend.documentEnd⟩
  cases hread with
  | rootless => cases hn
  | rooted hinv _ hroot _ =>
    cases hn
    rcases hinv with ⟨⟨lo', h'⟩, floor', hspread'⟩
    exact ((NodeReader.assembles_root hroot).parted (inOrder_cons.1 h').2.2 hspread'.document).1

end Composed
end Yaml
end YamlServer
