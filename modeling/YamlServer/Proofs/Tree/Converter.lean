import YamlServer.Proofs.Tree.Numbering
import YamlServer.Proofs.Yaml.NodeNumber

/-!
# The table of a conversion

A conversion looks the target of an alias up in a table of what it has met, and the table is filled
in the order of the walk: collections before what is inside them, scalars with their values. An
alias of a composed document names a node that was opened before it, so that it is found; and since
the tree is numbered as the composed nodes are, it is found under the number it has.

* `Tree.ofNode_eq_image`: every alias of a resolved node finds what it names.
* `Yaml.Composed.resolved_of_mem`: composed documents are resolved.
-/

namespace YamlServer

namespace Yaml

/-! ## Aliases along a walk -/

/-- Every alias in a row of nodes names one that is known, or one that comes before it. -/
def LedBy (known : List Nat) : List Node → Prop
  | [] => True
  | n :: rest => (∀ target ∈ n.target?, target ∈ known) ∧ LedBy (n.id :: known) rest

def knownAfter (known : List Nat) (nodes : List Node) : List Nat :=
  (nodes.map Node.id).reverse ++ known

@[simp]
theorem knownAfter_cons (known : List Nat) (n : Node) (rest : List Node) :
    knownAfter known (n :: rest) = knownAfter (n.id :: known) rest := by
  simp [knownAfter]

@[simp]
theorem knownAfter_append (known : List Nat) (nodes more : List Node) :
    knownAfter known (nodes ++ more) = knownAfter (knownAfter known nodes) more := by
  simp [knownAfter]

@[simp]
theorem ledBy_append {known : List Nat} {nodes more : List Node} :
    LedBy known (nodes ++ more) ↔ LedBy known nodes ∧ LedBy (knownAfter known nodes) more := by
  induction nodes generalizing known with
  | nil => simp [LedBy, knownAfter]
  | cons n rest ih => rw [List.cons_append, LedBy, LedBy, ih, knownAfter_cons, and_assoc]

/-- Nodes that resolve are led by the anchors that are known. -/
theorem Resolves.ledBy {anchors : List (String × Nat)} {opened : List (Event × Node)}
    {known : List Nat} (h : Resolves anchors opened) (hopens : ∀ p ∈ opened, Opens p.1 p.2)
    (hknown : ∀ x ∈ anchors, x.2 ∈ known) : LedBy known (opened.map (·.2)) := by
  induction opened generalizing anchors known with
  | nil => trivial
  | cons first rest ih =>
    rcases h with ⟨-, hlookup, hrest⟩
    refine ⟨?_, ih hrest (fun p hp => hopens p (List.mem_cons_of_mem _ hp)) ?_⟩
    · intro target htarget
      have hname : ∃ name, first.1.kind = .alias name := by
        rcases first with ⟨e, n⟩
        have hfirst : Opens e n := hopens _ List.mem_cons_self
        cases hfirst with
        | «alias» _ _ _ name => exact ⟨name, rfl⟩
        | _ => cases htarget
      rcases hname with ⟨name, hname⟩
      exact hknown _ (mem_of_lookup ((hlookup name hname).trans htarget))
    · intro x hx
      rcases mem_note hx with hx | ⟨-, hid⟩
      · exact List.mem_cons_of_mem _ (hknown x hx)
      · exact hid ▸ List.mem_cons_self

/-- A node that is numbered from 0 and whose aliases name nodes that come before them. -/
structure Node.Resolved (n : Node) : Prop where
  numbered : n.Numbered 0
  led : LedBy [] n.walk

theorem NodeReader.resolved_root {events : List Event} {n : Node} {after : NodeReader}
    (h : NodeReader.root events = .ok (n, after)) : n.Resolved := by
  rcases opened_root h with ⟨opened, hwalk, hopened⟩
  refine ⟨numbered_root h, ?_⟩
  rw [← hwalk]
  exact hopened.resolves.ledBy hopened.opens (by simp)

/-- A composed document that is resolved, if it has a root. -/
def Composed.Resolved (c : Composed) : Prop :=
  ∀ n, c.root = some n → n.Resolved

theorem Composed.resolved_of_mem {size : Nat} {s : EventStream} {c : Composed}
    (hc : c ∈ ofEvents size s) : c.Resolved := by
  intro n hn
  rcases exists_root_of_mem hc hn with ⟨own, after, -, hroot⟩
  exact NodeReader.resolved_root hroot

end Yaml

namespace Tree

open Yaml

/-! ## Steps of a conversion -/

def Converter.knowing (next : Nat) (known : List Nat) : Converter :=
  ⟨next, known.map fun id => (id, id)⟩

theorem Converter.lookup_knowing {next target : Nat} {known : List Nat} (h : target ∈ known) :
    (Converter.knowing next known).converted.lookup target = some target := by
  unfold knowing
  induction known with
  | nil => cases h
  | cons id rest ih =>
    rw [List.map_cons, List.lookup_cons]
    cases hid : target == id with
    | true => rw [eq_of_beq hid]
    | false =>
      rcases List.mem_cons.1 h with rfl | h
      · simp at hid
      · exact ih h

/-- What the conversion of a node does from a table on: it gives the image of the node, and the
table has the nodes of its walk besides. -/
def Steps (a : Attached) (n : Node) : Prop :=
  ∀ lo known, n.Numbered lo → LedBy known n.walk →
    convert a n (.knowing lo known) =
      (image a n).map (·, .knowing (lo + n.count) (knownAfter known n.walk))

theorem convertItems_knowing {a : Attached} {items : List Node} (h : ∀ n ∈ items, Steps a n)
    {lo : Nat} {known : List Nat} (hnumbered : Node.NumberedItems lo items)
    (hled : LedBy known (Node.walkItems items)) :
    convertItems a items (.knowing lo known) =
      (imageItems a items).map
        (·, .knowing (lo + Node.countItems items) (knownAfter known (Node.walkItems items))) := by
  induction items generalizing lo known with
  | nil => rfl
  | cons n rest ih =>
    rw [Node.walkItems, ledBy_append] at hled
    have hmore := ih (fun m hm => h m (List.mem_cons_of_mem _ hm)) hnumbered.2 hled.2
    rw [convertItems, imageItems, h n List.mem_cons_self lo known hnumbered.1 hled.1]
    cases image a n with
    | error f => rfl
    | ok t =>
      dsimp only [Except.map, Bind.bind, Except.bind]
      rw [hmore, Node.countItems, Node.walkItems, knownAfter_append, Nat.add_assoc]
      cases imageItems a rest with
      | error f => rfl
      | ok more => rfl

theorem convertEntries_knowing {a : Attached} {entries : List (Node × Node)}
    (h : ∀ e ∈ entries, Steps a e.1 ∧ Steps a e.2) {lo : Nat} {known : List Nat}
    (hnumbered : Node.NumberedEntries lo entries) (hled : LedBy known (Node.walkEntries entries)) :
    convertEntries a entries (.knowing lo known) =
      (imageEntries a entries).map
        (·, .knowing (lo + Node.countEntries entries)
          (knownAfter known (Node.walkEntries entries))) := by
  induction entries generalizing lo known with
  | nil => rfl
  | cons e rest ih =>
    rcases e with ⟨k, v⟩
    rw [Node.walkEntries, ledBy_append, ledBy_append] at hled
    rcases hled with ⟨⟨hkey, hvalue⟩, hrest⟩
    rcases hnumbered with ⟨hfirst, hsecond, hothers⟩
    rcases h _ List.mem_cons_self with ⟨hk, hv⟩
    have hk := hk _ _ hfirst hkey
    have hv := hv _ _ hsecond hvalue
    rw [knownAfter_append] at hrest
    have hmore := ih (fun e he => h e (List.mem_cons_of_mem _ he)) hothers hrest
    have hpair : (Converter.knowing lo known).takePair = .knowing (lo + 1) known := rfl
    rw [convertEntries, imageEntries, hpair, hk]
    cases image a k with
    | error f => rfl
    | ok key =>
      dsimp only [Except.map, Bind.bind, Except.bind]
      rw [hv]
      cases image a v with
      | error f => rfl
      | ok value =>
        dsimp only [Except.map, Bind.bind, Except.bind]
        have hcount : lo + Node.countEntries ((k, v) :: rest) =
            lo + 1 + k.count + v.count + Node.countEntries rest := by
          rw [Node.countEntries]
          omega
        rw [hmore, hcount, Node.walkEntries, knownAfter_append, knownAfter_append]
        cases imageEntries a rest with
        | error f => rfl
        | ok more => rfl

/-- A conversion from a table in which the aliases of a node find what they name. -/
theorem convert_knowing (a : Attached) (n : Node) : Steps a n := by
  induction n using Node.induction_below with
  | scalar id span tag content style =>
    rintro lo known rfl -
    rw [convert, image]
    cases scalarValue tag content with
    | error f => rfl
    | ok value => rfl
  | leaf id span anchor target =>
    rintro lo known rfl hled
    rw [convert, Converter.lookup_knowing (hled.1 target rfl)]
    rfl
  | sequence id span tag items ih =>
    rintro lo known ⟨rfl, hnumbered⟩ hled
    have htake : (Converter.knowing id known).take id = .knowing (id + 1) (id :: known) := rfl
    have hinside : LedBy (id :: known) (Node.walkItems items) := hled.2
    have hitems := convertItems_knowing ih hnumbered hinside
    rw [convert, image, htake, hitems, Node.walk, knownAfter_cons, Node.count, ← Nat.add_assoc]
    cases imageItems a items with
    | error f => rfl
    | ok ts => rfl
  | mapping id span tag entries ih =>
    rintro lo known ⟨rfl, hnumbered⟩ hled
    have htake : (Converter.knowing id known).take id = .knowing (id + 1) (id :: known) := rfl
    have hinside : LedBy (id :: known) (Node.walkEntries entries) := hled.2
    have hentries := convertEntries_knowing ih hnumbered hinside
    rw [convert, image, htake, hentries, Node.walk, knownAfter_cons, Node.count, ← Nat.add_assoc]
    cases imageEntries a entries with
    | error f => rfl
    | ok ts => rfl

/-- Every alias of a resolved node finds what it names, under the number it was composed with. -/
theorem ofNode_eq_image {a : Attached} {n : Node} (h : n.Resolved) : ofNode a n = image a n := by
  have hsteps := convert_knowing a n 0 [] h.numbered h.led
  change convert a n ⟨0, []⟩ = _ at hsteps
  rw [ofNode, hsteps]
  cases image a n with
  | error f => rfl
  | ok t => rfl

end Tree
end YamlServer
