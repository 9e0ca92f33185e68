import YamlServer.Proofs.Document.Reading
import YamlServer.Proofs.Tree.Numbering
import YamlServer.Proofs.Yaml.NodeNumber

/-!
# From composed documents to trees

A document's tree has one node for each composed node, in the same order, and besides these only the
pairs of keys and values. Each of them keeps its kind, its place and its tag. An alias always finds
what it names in the table of the conversion, and what it finds is the number of the tree of the
anchored node, which was walked before.

* `Document.conversion_faithful`: documents are converted if their scalars have values, and then
  faithfully; an alias may name a collection around it.
-/

namespace YamlServer

open Yaml Outcome

namespace Yaml.Composed

def nodes (c : Composed) : List Node :=
  match c.root with
  | none => []
  | some n => n.walk

end Yaml.Composed

namespace Tree

/-- A node of a tree is of the kind of a composed one, and has the same text or name. -/
inductive OfKind : Node → Tree → Prop where
  | scalar (id : Nat) (span : Span) (tag content : String) (style : Option Style) (info : Info)
      (value : Value) :
      OfKind (.scalar id span tag content style) (.scalar info value content style)
  | sequence (id : Nat) (span : Span) (tag : String) (items : List Node) (info : Info)
      (children : List Tree) : OfKind (.sequence id span tag items) (.sequence info children)
  | mapping (id : Nat) (span : Span) (tag : String) (entries : List (Node × Node)) (info : Info)
      (children : List Tree) : OfKind (.mapping id span tag entries) (.map info children)
  | alias (id : Nat) (span : Span) (name : String) (target : Nat) (info : Info) :
      OfKind (.alias id span name target) (.alias info name (some target))

/-- The node of a tree that stands for a composed node: it has its number, its kind, its place and
its tag. -/
structure Mirrors (n : Node) (v : Visit) : Prop where
  id : v.id = n.id
  kind : OfKind n v.node
  range : v.node.range? = some (n.span.start.index, n.span.stop.index)
  tag : (v.node.info?.bind (·.tag)) = n.tag?

def withoutPairs (visits : List Visit) : List Visit :=
  visits.filter fun v => !v.node.isPair

@[simp]
theorem withoutPairs_append (vs ws : List Visit) :
    withoutPairs (vs ++ ws) = withoutPairs vs ++ withoutPairs ws :=
  List.filter_append ..

@[simp]
theorem withoutPairs_flatMap {α : Type} (f : α → List Visit) (xs : List α) :
    withoutPairs (xs.flatMap f) = xs.flatMap fun x => withoutPairs (f x) :=
  List.filter_flatMap ..

/-! ## The nodes of a tree -/

variable {a : Attached}

theorem Numbers.mirrors {n : Node} {numbered : Nat × Tree} (h : Numbers a n numbered)
    (parent : Option Nat) : Mirrors n ⟨numbered.1, parent, numbered.2⟩ := by
  rcases numbered with ⟨lo, t⟩
  rcases h with ⟨hnumbered, ht⟩
  have hid : lo = n.id := hnumbered.id_eq.symm
  cases n with
  | scalar =>
    rcases bind_eq_ok.1 ht with ⟨value, -, hlast⟩
    cases hlast
    exact ⟨hid, .scalar .., rfl, rfl⟩
  | sequence =>
    rcases bind_eq_ok.1 ht with ⟨ts, -, hlast⟩
    cases hlast
    exact ⟨hid, .sequence .., rfl, rfl⟩
  | mapping =>
    rcases bind_eq_ok.1 ht with ⟨ts, -, hlast⟩
    cases hlast
    exact ⟨hid, .mapping .., rfl, rfl⟩
  | «alias» =>
    cases ht
    exact ⟨hid, .alias .., rfl, rfl⟩

theorem OfKind.isPair {n : Node} {t : Tree} (h : OfKind n t) : t.isPair = false := by
  cases h <;> rfl

theorem OfKind.kindName_ne {n : Node} {t : Tree} (h : OfKind n t) (hnone : n.target? = none) :
    t.kindName ≠ "alias" := by
  cases h with
  | «alias» => cases hnone
  | _ => simp [kindName]

/-- The top of a tree stands for the node, and what is below it for the nodes below. -/
theorem forall₂_top {n : Node} {nodes : List Node} {numbered : Nat × Tree} {parent : Option Nat}
    (h : Numbers a n numbered)
    (hbelow : List.Forall₂ Mirrors nodes (withoutPairs
      ((branches numbered.1 numbered.2).flatMap fun b =>
        visitsFrom (some numbered.1) b.id b.node))) :
    List.Forall₂ Mirrors (n :: nodes) (withoutPairs (visitsFrom parent numbered.1 numbered.2)) := by
  have hmirrors := h.mirrors parent
  rw [visitsFrom_eq, withoutPairs, List.filter_cons_of_pos (by simp [hmirrors.kind.isPair])]
  exact .cons hmirrors hbelow

theorem flatMap_branches_sequence {α : Type} (id : Nat) (info : Info) (items : List Tree)
    (f : Nat → Tree → List α) :
    ((branches id (.sequence info items)).flatMap fun b => f b.id b.node) =
      (numberFrom (id + 1) items).flatMap fun c => f c.1 c.2 :=
  List.flatMap_map ..

theorem flatMap_branches_map {α : Type} (id : Nat) (info : Info) (entries : List Tree)
    (f : Nat → Tree → List α) :
    ((branches id (.map info entries)).flatMap fun b => f b.id b.node) =
      (numberFrom (id + 1) entries).flatMap fun c => f c.1 c.2 :=
  List.flatMap_map ..

/-- What stands below a pair is its key and its value. -/
theorem withoutPairs_pair (parent : Option Nat) (id : Nat) (key value : Tree) :
    withoutPairs (visitsFrom parent id (.pair (some key) (some value))) =
      withoutPairs (visitsFrom (some id) (id + 1) key) ++
        withoutPairs (visitsFrom (some id) (id + 1 + key.size) value) := by
  rw [← withoutPairs_append, withoutPairs, visitsFrom, List.filter_cons_of_neg (by simp [isPair])]
  rfl

/-- Without its pairs the walk of a tree is that of the composed node. -/
theorem forall₂_mirrors (n : Node) : ∀ parent numbered, Numbers a n numbered →
    List.Forall₂ Mirrors n.walk (withoutPairs (visitsFrom parent numbered.1 numbered.2)) := by
  induction n using Node.induction_below with
  | scalar id span tag content style =>
    rintro parent ⟨lo, t⟩ h
    refine forall₂_top h ?_
    rcases bind_eq_ok.1 h.2 with ⟨value, -, hlast⟩
    cases hlast
    exact .nil
  | leaf id span anchor target =>
    rintro parent ⟨lo, t⟩ h
    refine forall₂_top h ?_
    have ht := h.2
    cases ht
    exact .nil
  | sequence id span tag items ih =>
    rintro parent ⟨lo, t⟩ h
    refine forall₂_top h ?_
    rcases bind_eq_ok.1 h.2 with ⟨ts, hts, hlast⟩
    cases hlast
    dsimp only
    rw [Node.walkItems_eq, flatMap_branches_sequence, withoutPairs_flatMap]
    refine Abreast.flatMap (forall₂_imageItems h.1.2 hts) ?_
    intro item hitem child hnumbers
    exact ih item hitem _ child hnumbers
  | mapping id span tag entries ih =>
    rintro parent ⟨lo, t⟩ h
    refine forall₂_top h ?_
    rcases bind_eq_ok.1 h.2 with ⟨ts, hts, hlast⟩
    cases hlast
    dsimp only
    rw [Node.walkEntries_eq, flatMap_branches_map, withoutPairs_flatMap]
    refine Abreast.flatMap (forall₂_imageEntries h.1.2 hts) ?_
    rintro entry hentry ⟨i, pair⟩ ⟨key, value, rfl, hkey, hvalue⟩
    dsimp only
    rw [withoutPairs_pair]
    exact List.rel_append ((ih entry hentry).1 _ _ hkey) ((ih entry hentry).2 _ _ hvalue)

theorem id_eq_length {t : Tree} {v : Visit} {before after : List Visit}
    (hvisits : t.visits = before ++ v :: after) : v.id = before.length := by
  have hids : t.visits.map (·.id) = List.range' 0 t.size := by
    rw [visits_eq_places, List.map_map]
    exact map_id_placesFrom [] 0 t
  have hlt : before.length < t.size := by
    have hlength := congrArg List.length hids
    rw [hvisits, List.length_map, List.length_range', List.length_append, List.length_cons]
      at hlength
    omega
  have hplace := congrArg (·[before.length]?) hids
  simpa [hvisits, List.getElem?_range' hlt] using hplace

/-- A visit with a smaller number comes before. -/
theorem getElem?_before {t : Tree} {v w : Visit} {before after : List Visit}
    (hvisits : t.visits = before ++ v :: after) (hw : w ∈ t.visits) (hlt : w.id < v.id) :
    before[w.id]? = some w := by
  rcases List.append_of_mem hw with ⟨before', after', hvisits'⟩
  have hplace : t.visits[w.id]? = some w := by
    rw [hvisits', id_eq_length hvisits', List.getElem?_append_right (Nat.le_refl _), Nat.sub_self]
    rfl
  rw [id_eq_length hvisits] at hlt
  rwa [hvisits, List.getElem?_append_left hlt] at hplace

end Tree

namespace Yaml.Composed

/-- The nodes of a composed document with the events of the stream that open them: those of one
stretch of the stream, in order, no two with the same anchor. -/
structure OpenedBy (c : Composed) (events : List Event) (opened : List (Event × Node)) : Prop where
  nodes : opened.map (·.2) = c.nodes
  events : ∃ own, own <:+: events ∧ own.filter (·.kind.isOpening) = opened.map (·.1)
  opens : ∀ p ∈ opened, Opens p.1 p.2
  anchors : (opened.filterMap (·.1.kind.anchor?)).Nodup

end Yaml.Composed

namespace Document

/-- Where an alias leads: its number is the place of a node that was walked before it, is no alias,
and stands for the composed node with the anchor. -/
def LeadsBack (opened : List (Event × Node)) (before : List Tree.Visit) (name : String)
    (target : Option Nat) : Prop :=
  ∃ id w p, target = some id ∧ before[id]? = some w ∧ w.node.kindName ≠ "alias" ∧
    p ∈ opened ∧ p.1.kind.anchor? = some name ∧ Tree.Mirrors p.2 w

/-- A document has the nodes of the composed one, and its aliases lead to what they name. -/
structure Faithful (events : List Event) (c : Composed) (d : Document) : Prop where
  nodes : List.Forall₂ Tree.Mirrors c.nodes (Tree.withoutPairs d.visits)
  aliases : ∃ opened, c.OpenedBy events opened ∧
    ∀ before v after info name target, d.visits = before ++ v :: after →
      v.node = .alias info name target → LeadsBack opened before name target

theorem faithful_rootless {events : List Event} {c : Composed} {d : Document}
    (hc : c.root = none) (hd : d.root = none) : Faithful events c d := by
  have hnodes : c.nodes = [] := by rw [Composed.nodes, hc]
  have hvisits : d.visits = [] := by rw [visits, hd]; rfl
  refine ⟨?_, [], ⟨?_, ⟨[], List.nil_infix, rfl⟩, nofun, List.nodup_nil⟩, ?_⟩
  · rw [hnodes, hvisits]
    exact .nil
  · rw [hnodes]
    rfl
  · intro before v after info name target hsplit
    rw [hvisits] at hsplit
    exact absurd hsplit (by simp)

/-- The numbers of nodes grow from one that is opened earlier to one that is opened later. -/
theorem id_lt_of_opened {events : List Event} {n : Node} {after : NodeReader}
    {before rest : List (Event × Node)} {p q : Event × Node}
    (h : NodeReader.root events = .ok (n, after))
    (hwalk : (before ++ q :: rest).map (·.2) = n.walk) (hp : p ∈ before) : p.2.id < q.2.id := by
  have hordered := (NodeReader.counts_root h).ordered
  rw [← hwalk, List.pairwise_map, List.pairwise_append] at hordered
  exact hordered.2.2 p hp q List.mem_cons_self

/-- An alias of the tree stands for a composed alias, which has the number of an anchored node; and
that node has a place of its own in the tree. -/
theorem leadsBack_of_alias {events : List Event} {n : Node} {after : NodeReader} {t : Tree}
    {opened : List (Event × Node)} {before rest : List Tree.Visit} {v : Tree.Visit} {info : Info}
    {name : String} {target : Option Nat} (hroot : NodeReader.root events = .ok (n, after))
    (hmirrors : List.Forall₂ Tree.Mirrors n.walk (Tree.withoutPairs t.visits))
    (hwalk : opened.map (·.2) = n.walk)
    (hopened : NodeReader.Opened ⟨events, 0, []⟩ after opened)
    (hsplit : t.visits = before ++ v :: rest) (halias : v.node = .alias info name target) :
    LeadsBack opened before name target := by
  have hv : v ∈ Tree.withoutPairs t.visits := by
    refine List.mem_filter.2 ⟨hsplit ▸ by simp, ?_⟩
    rw [halias]
    rfl
  rcases Abreast.exists_of_mem hmirrors.flip hv with ⟨m, hm, hmirror⟩
  rw [← hwalk] at hm
  rcases List.mem_map.1 hm with ⟨⟨e, m⟩, hpair, rfl⟩
  have hkind := hmirror.kind
  rw [halias] at hkind
  cases hkind with
  | «alias» id span _ number _ =>
    rcases List.append_of_mem hpair with ⟨earlier, later, rfl⟩
    have hopens := hopened.opens _ hpair
    rcases hopened.resolves.exists_anchored hopens.kind_of_alias rfl with ⟨p, hp, hanchor, hid⟩
    have hp' := List.mem_append_left ((e, .alias id span name number) :: later) hp
    have hnode : p.2 ∈ n.walk := hwalk ▸ List.mem_map_of_mem hp'
    rcases Abreast.exists_of_mem hmirrors hnode with ⟨w, hw, hwmirror⟩
    have hlt : w.id < v.id := by
      rw [hwmirror.id, hmirror.id]
      exact id_lt_of_opened hroot hwalk hp
    have hplace := Tree.getElem?_before hsplit (List.mem_filter.1 hw).1 hlt
    rw [hwmirror.id, hid] at hplace
    have hnone := (hopened.opens p hp').target?_of_anchor hanchor
    exact ⟨number, w, p, rfl, hplace, hwmirror.kind.kindName_ne hnone, hp', hanchor, hwmirror⟩

theorem faithful_rooted {events own : List Event} {c : Composed} {d : Document} {a : Attached}
    {n : Node} {t : Tree} {after : NodeReader} (hc : c.root = some n) (hd : d.root = some t)
    (ht : Tree.image a n = .ok t) (hown : own <:+ events)
    (hroot : NodeReader.root own = .ok (n, after)) : Faithful events c d := by
  have hnodes : c.nodes = n.walk := by rw [Composed.nodes, hc]
  have hvisits : d.visits = t.visits := by rw [visits, hd]; rfl
  have hmirrors : List.Forall₂ Tree.Mirrors n.walk (Tree.withoutPairs t.visits) :=
    Tree.forall₂_mirrors n none (0, t) ⟨NodeReader.numbered_root hroot, ht⟩
  rcases NodeReader.opened_root hroot with ⟨opened, hwalk, hopened⟩
  rcases hopened.passed with ⟨passed, hpassed, hevents⟩
  have hinfix : passed <:+: own := ⟨[], after.events, hpassed.symm⟩
  refine ⟨?_, opened, ?_, ?_⟩
  · rw [hnodes, hvisits]
    exact hmirrors
  · exact ⟨hwalk.trans hnodes.symm, ⟨passed, hinfix.trans hown.isInfix, hevents⟩, hopened.opens,
      hopened.resolves.nodup_anchors⟩
  · intro before v rest info name target hsplit halias
    rw [hvisits] at hsplit
    exact leadsBack_of_alias hroot hmirrors hwalk hopened hsplit halias

theorem ofComposed_isOk_iff (customTags : List String) {c : Composed} (hc : c.Resolved)
    (comments : List Comment) :
    (∃ d, ofComposed customTags c comments = .ok d) ↔
      ∀ x ∈ c.texts, ¬ Scalar.Unvalued x.1 x.2 := by
  rw [← Tree.mapM_scalarOf_isOk]
  have hmap := map_ofComposed customTags hc comments
  constructor
  · rintro ⟨d, hd⟩
    rw [hd] at hmap
    rcases map_eq_ok.1 hmap.symm with ⟨scalars, hscalars, -⟩
    exact ⟨scalars, hscalars⟩
  · rintro ⟨scalars, hscalars⟩
    rw [hscalars] at hmap
    rcases map_eq_ok.1 hmap with ⟨d, hd, -⟩
    exact ⟨d, hd⟩

def selfText : String :=
  "&a [1, *a]"

/-- Conversion is faithful, and an alias may lead to one of its own ancestors. -/
theorem conversion_faithful :
    (∀ (size : Nat) (s : EventStream), ∀ c ∈ Composed.ofEvents size s,
      ∀ (customTags : List String) (comments : List Comment),
        ((∃ d, ofComposed customTags c comments = .ok d) ↔
            ∀ x ∈ c.texts, ¬ Scalar.Unvalued x.1 x.2) ∧
          ∀ d, ofComposed customTags c comments = .ok d → Faithful s.events c d) ∧
      ∃ set d v target, DocumentSet.parse selfText [] = .ok set ∧ d ∈ set.documents ∧
        v ∈ d.visits ∧ v.node.target? = some target ∧
        target ∈ Tree.ancestors d.visits v.id := by
  refine ⟨?_, ?_⟩
  · intro size s c hc customTags comments
    have hresolved := Composed.resolved_of_mem hc
    refine ⟨ofComposed_isOk_iff customTags hresolved comments, fun d hd => ?_⟩
    rcases (root_ofComposed hresolved hd).2 with ⟨hroot, hroot'⟩ | ⟨n, t, hroot, ht, hroot'⟩
    · exact faithful_rootless hroot hroot'
    · rcases Composed.exists_root_of_mem hc hroot with ⟨own, after, hown, hread⟩
      exact faithful_rooted hroot hroot' ht hown hread
  · have hself : ∃ set ∈ (DocumentSet.parse selfText []).toOption, ∃ d ∈ set.documents,
        ∃ v ∈ d.visits, ∃ target ∈ v.node.target?, target ∈ Tree.ancestors d.visits v.id := by
      decide +kernel
    rcases hself with ⟨set, hset, d, hd, v, hv, target, htarget, habove⟩
    exact ⟨set, d, v, target, toOption_eq_some.1 hset, hd, hv, htarget, habove⟩

end Document
end YamlServer
