import YamlServer.Proofs.Graph.Findings
import YamlServer.Proofs.Graph.KeyPath

/-!
# The definitions of a node

The definitions that apply to a node are looked up at once for the outermost pairs and their values,
and searched for below them, where the route and the length of the path depend on whether the node
is a pair. All this comes to one way down: along the keys of the pairs around the node, and to its
own key if it is a pair.

So a node that is no pair has the definitions of the nearest pair around it. And the look-up at the
top is a search as well, in the graph that has one more key with all others below it.

* `Graph.keysTo`, `Graph.below`: the keys that lead to a node, and where they lead.
* `Graph.withRoot`, `Graph.matchNode_eq_search_withRoot`: the search from a key above all others.
-/

namespace YamlServer
namespace Graph

variable {g : Graph} {visits : List Tree.Visit} {id : Nat} {t : Tree}

/-! ## The way to a node -/

/-- The keys of the pairs around a node from the outermost one on, and its own key if it is a
pair. -/
def keysTo (visits : List Tree.Visit) (id : Nat) (t : Tree) : List Value :=
  (ancestorKeys visits id).reverse ++ if t.isPair then [keyValue t] else []

def below (g : Graph) : List Value → Except GraphFault (List Definition)
  | [] => .ok []
  | top :: rest => g.descend ((g.get? top).getD []) rest

theorem isName_keyValue (t : Tree) : (keyValue t).IsName := by
  unfold keyValue
  split
  · exact Value.isName_str _
  · exact Or.inl rfl

theorem isName_of_mem_ancestorKeys {key : Value} (h : key ∈ ancestorKeys visits id) :
    key.IsName := by
  obtain ⟨a, -, ha⟩ := List.mem_filterMap.1 h
  split at ha
  · split at ha
    · cases ha
      exact isName_keyValue _
    · cases ha
  · cases ha

/-- The route of a search that goes down to the target from the keys around a node. -/
theorem search_around (hg : g.TextChildren) (target : Value) {init left : List Value}
    (hinit : ∀ key ∈ init, key.IsName) (hne : init ≠ []) (hleft : left = [] ∨ left = [target]) :
    g.search (init ++ left) target (init.length + 1) = g.below (init ++ [target]) := by
  cases init with
  | nil => exact absurd rfl hne
  | cons top mid =>
    have hsearch := search_eq_descend (g := g) hg (hinit top List.mem_cons_self) mid target hleft
    rw [List.cons_append, List.cons_append, below, ← hsearch, List.length_cons]
    rfl

/-- The definitions of a node are those at the end of its keys. -/
theorem matchNode_eq_below (hg : g.TextChildren) (visits : List Tree.Visit) (id : Nat) (t : Tree) :
    g.matchNode visits id t = g.below (keysTo visits id t) := by
  rw [matchNode, keysTo]
  have hnames : ∀ key ∈ ancestorKeys visits id, key.IsName :=
    fun key hkey => isName_of_mem_ancestorKeys hkey
  cases hkeys : ancestorKeys visits id with
  | nil =>
    cases t.isPair with
    | true => rfl
    | false => rfl
  | cons nearest outer =>
    rw [hkeys] at hnames
    dsimp only
    cases t.isPair with
    | true =>
      -- A pair: the whole chain is the route, and its own key the target.
      have hreverse : ∀ key ∈ (nearest :: outer).reverse, key.IsName :=
        fun key hkey => hnames key (List.mem_reverse.1 hkey)
      have hsearch := search_around hg (keyValue t) hreverse (by simp) (Or.inl rfl)
      rw [List.append_nil] at hsearch
      exact hsearch
    | false =>
      rw [if_neg Bool.false_ne_true, if_neg Bool.false_ne_true, List.append_nil,
        List.reverse_cons]
      cases outer with
      | nil => rfl
      | cons key outer =>
        -- Any other node: the nearest key is the target, and the route goes on to it.
        have hreverse : ∀ k ∈ (key :: outer).reverse, k.IsName :=
          fun k hk => hnames k (List.mem_cons_of_mem _ (List.mem_reverse.1 hk))
        have hsearch := search_around hg nearest hreverse (by simp) (Or.inr rfl)
        rw [← hsearch, List.isEmpty_cons, if_neg Bool.false_ne_true, List.length_append,
          List.length_singleton]
        rfl

/-- A child without an entry is the only fault. -/
theorem matchNode_fault (hg : g.TextChildren) {fault : GraphFault}
    (h : g.matchNode visits id t = .error fault) : ∃ key, fault = .undefinedKey key := by
  rw [matchNode_eq_below hg] at h
  cases hkeys : keysTo visits id t with
  | nil =>
    rw [hkeys] at h
    cases h
  | cons top rest =>
    rw [hkeys] at h
    exact descend_fault h

/-! ## The nearest pair -/

def nearestPair? (visits : List Tree.Visit) (id : Nat) : Option Tree.Visit :=
  (Tree.ancestors visits id).findSome? fun a => visits[a]?.filter (·.node.isPair)

/-- One parent up: a pair is the nearest one itself and gives the nearest key, any other node adds
nothing. -/
theorem ancestorKeys_below {p : Tree.Place} {l : Tree.Link} {rest : List Tree.Link}
    (hp : p ∈ t.places) (hl : (⟨l.id, rest, l.node⟩ : Tree.Place) ∈ t.places)
    (habove : p.above = l :: rest) :
    l.node.isPair = true ∧
        ancestorKeys t.visits p.id = keyValue l.node :: ancestorKeys t.visits l.id ∧
        nearestPair? t.visits p.id = t.visits[l.id]? ∨
      l.node.isPair = false ∧ ancestorKeys t.visits p.id = ancestorKeys t.visits l.id ∧
        nearestPair? t.visits p.id = nearestPair? t.visits l.id := by
  have hchain : Tree.ancestors t.visits p.id = l.id :: Tree.ancestors t.visits l.id := by
    rw [Tree.ancestors_place hp, Tree.ancestors_place hl, habove, List.map_cons]
  obtain ⟨v, hv, hnode⟩ := Option.map_eq_some_iff.1 (Tree.nodeAt?_place hl)
  unfold nearestPair?
  rw [ancestorKeys_place hp, ancestorKeys_place hl, habove, hchain, List.findSome?_cons, hv,
    Option.filter_some, hnode]
  cases hpair : l.node.isPair with
  | true => exact Or.inl ⟨rfl, List.filterMap_cons_some (if_pos hpair), rfl⟩
  | false =>
    have hnone : ¬ l.node.isPair = true := by
      rw [hpair]
      exact Bool.false_ne_true
    exact Or.inr ⟨rfl, List.filterMap_cons_none (if_neg hnone), rfl⟩

/-- The keys around a node start with that of the nearest pair. -/
theorem ancestorKeys_of_nearestPair? {p : Tree.Place} (hp : p ∈ t.places) {q : Tree.Visit}
    (hq : nearestPair? t.visits p.id = some q) :
    q.node.isPair = true ∧
      ancestorKeys t.visits p.id = keyValue q.node :: ancestorKeys t.visits q.id := by
  -- Down the chain: the nearest pair is the parent, or what it is for the parent.
  revert hq
  refine Tree.place_induction (motive := fun p => nearestPair? t.visits p.id = some q →
    q.node.isPair = true ∧
      ancestorKeys t.visits p.id = keyValue q.node :: ancestorKeys t.visits q.id) ?_ ?_ hp
  · intro hq
    rw [nearestPair?, Tree.ancestors_place (Tree.root_place t)] at hq
    cases hq
  · intro l rest p hp hl habove _ ih hq
    rcases ancestorKeys_below hp hl habove with ⟨hpair, hkeys, hnearest⟩ | ⟨-, hkeys, hnearest⟩
    · rw [hnearest, Tree.getElem?_visits hl] at hq
      cases hq
      exact ⟨hpair, hkeys⟩
    · rw [hnearest] at hq
      rw [hkeys]
      exact ih hq

/-- A node that is no pair has the definitions of the nearest pair around it, and where these cannot
be given it has its fault, which is always a child without an entry. -/
theorem matchNode_eq_nearestPair (hg : g.TextChildren) (d : Document) {v q : Tree.Visit}
    (hv : v ∈ d.visits) (hnode : v.node.isPair = false) (hq : nearestPair? d.visits v.id = some q) :
    g.matchNode d.visits v.id v.node = g.matchNode d.visits q.id q.node ∧
      ∀ fault, g.matchNode d.visits v.id v.node = .error fault →
        ∃ key, fault = .undefinedKey key := by
  refine ⟨?_, fun fault h => matchNode_fault hg h⟩
  rw [Document.visits] at hv hq ⊢
  cases hroot : d.root with
  | none =>
      rw [hroot] at hv
      cases hv
  | some root =>
      rw [hroot] at hv hq
      rw [Tree.visitsOf] at hv hq ⊢
      rw [Tree.visits_eq_places] at hv
      obtain ⟨p, hp, rfl⟩ := List.mem_map.1 hv
      obtain ⟨hpair, hkeys⟩ := ancestorKeys_of_nearestPair? hp hq
      have hsame : keysTo root.visits p.id p.node = keysTo root.visits q.id q.node := by
        have hnode' : p.node.isPair = false := hnode
        rw [keysTo, keysTo, hkeys, hpair, hnode', if_pos rfl, if_neg Bool.false_ne_true,
          List.append_nil, List.reverse_cons]
      rw [matchNode_eq_below hg, matchNode_eq_below hg, ← hsame]
      rfl

def portGraph : Graph :=
  ⟨[(.str "host", [⟨.object, [.str "link"]⟩, ⟨.object, [.str "port"]⟩]),
    (.str "port", [⟨.integer, []⟩])]⟩

theorem textual_portGraph : portGraph.Textual := by
  constructor <;> simp [portGraph]

def portText : String :=
  "host:\n  port: [80]\n  link: {port: 1}\n"

theorem matchNode_eq_nearestPair_ports :
    ∃ set d v q w u, DocumentSet.parse portText [] = .ok set ∧ d ∈ set.documents ∧
      portGraph.TextChildren ∧
      (v ∈ d.visits ∧ v.node.isPair = false ∧ nearestPair? d.visits v.id = some q ∧
        (portGraph.matchNode d.visits v.id v.node).toOption.map (·.map (·.type)) =
          some [.integer] ∧
        portGraph.matchNode d.visits v.id v.node = portGraph.matchNode d.visits q.id q.node) ∧
      (w ∈ d.visits ∧ w.node.isPair = false ∧ nearestPair? d.visits w.id = some u ∧
        (portGraph.matchNode d.visits w.id w.node).toOption.isNone ∧
        portGraph.matchNode d.visits w.id w.node = portGraph.matchNode d.visits u.id u.node) := by
  have hread : ∃ set ∈ (DocumentSet.parse portText []).toOption, ∃ d ∈ set.documents,
      (∃ v ∈ d.visits, v.node.isPair = false ∧ ∃ q ∈ nearestPair? d.visits v.id, v.id = 7 ∧
        (portGraph.matchNode d.visits v.id v.node).toOption.map (·.map (·.type)) =
          some [.integer]) ∧
      ∃ w ∈ d.visits, w.node.isPair = false ∧ ∃ u ∈ nearestPair? d.visits w.id,
        (portGraph.matchNode d.visits w.id w.node).toOption.isNone := by
    decide +kernel
  obtain ⟨set, hset, d, hd, ⟨v, hv, hnode, q, hq, -, htypes⟩, w, hw, hnode', u, hu, hnone⟩ := hread
  have htexts := textual_portGraph.textChildren
  exact ⟨set, d, v, q, w, u, Outcome.toOption_eq_some.1 hset, hd, htexts,
    ⟨hv, hnode, hq, htypes, (matchNode_eq_nearestPair htexts d hv hnode hq).1⟩,
    hw, hnode', hu, hnone, (matchNode_eq_nearestPair htexts d hw hnode' hu).1⟩

/-! ## A key above all others -/

/-- The graph with one more key, which has all its keys as children. -/
def withRoot (g : Graph) (r : String) : Graph :=
  ⟨g.entries ++ [(.str r, [⟨.object, g.keys⟩])]⟩

section

variable {r : String}

@[simp]
theorem find?_append (key : Value) (as bs : List (Value × List Definition)) :
    find? key (as ++ bs) = (find? key as).or (find? key bs) := by
  induction as with
  | nil => rfl
  | cons a as ih =>
    obtain ⟨k, ds⟩ := a
    rw [List.cons_append, find?, find?]
    split
    · rfl
    · exact ih

theorem get?_withRoot_self (h : g.get? (.str r) = none) :
    (g.withRoot r).get? (.str r) = some [⟨.object, g.keys⟩] := by
  rw [get?] at h
  rw [get?, withRoot, find?_append, h, Option.none_or, find?,
    if_pos ((Value.same_iff_of_isName (Value.isName_str r)).2 rfl)]

theorem get?_withRoot_of_ne {key : Value} (h : key ≠ .str r) :
    (g.withRoot r).get? key = g.get? key := by
  have hother : find? key [(.str r, [⟨.object, g.keys⟩])] = none := by
    rw [find?, if_neg fun hsame => h (Value.same_str_left.1 hsame), find?]
  rw [get?, withRoot, find?_append, hother, Option.or_none, get?]

theorem definitions_withRoot_of_ne {key : Value} (h : key ≠ .str r) :
    (g.withRoot r).definitions key = g.definitions key := by
  rw [definitions, definitions, get?_withRoot_of_ne h]

theorem allChildren_withRoot : (g.withRoot r).allChildren = g.allChildren ++ g.keys := by
  simp [allChildren, withRoot]

/-- Where keys are texts, the keys of a graph are what can be looked up in it. -/
theorem Textual.get?_eq_none_iff (hg : g.Textual) {key : Value} :
    g.get? key = none ↔ key ∉ g.keys := by
  have hkeys := hg.keys
  rw [get?, Graph.keys]
  generalize g.entries = entries at hkeys ⊢
  induction entries with
  | nil => simp [find?]
  | cons e rest ih =>
    obtain ⟨k, ds⟩ := e
    obtain ⟨s, rfl⟩ : ∃ s, k = .str s := hkeys (k, ds) List.mem_cons_self
    have hrest := ih fun e he => hkeys e (List.mem_cons_of_mem _ he)
    rw [find?, List.map_cons, List.mem_cons, not_or]
    split
    · rename_i hsame
      exact iff_of_false (Option.some_ne_none _) fun h => h.1 (Value.same_str_left.1 hsame)
    · rename_i hsame
      exact hrest.trans (and_iff_right fun h => hsame (Value.same_str_left.2 h)).symm

theorem Textual.textChildren_withRoot (hg : g.Textual) : (g.withRoot r).TextChildren := by
  intro c hc
  rw [allChildren_withRoot] at hc
  rcases List.mem_append.1 hc with hc | hc
  · exact hg.str_of_mem_allChildren hc
  · obtain ⟨e, he, rfl⟩ := List.mem_map.1 hc
    exact hg.keys e he

theorem descend_withRoot (hchild : .str r ∉ g.allChildren) {ds : List Definition}
    (hds : ds.flatMap (·.children) ⊆ g.allChildren) (hg : g.Textual) (keys : List Value) :
    (g.withRoot r).descend ds keys = g.descend ds keys := by
  induction keys generalizing ds with
  | nil => rfl
  | cons key keys ih =>
    rw [descend_cons, descend_cons, pick, pick]
    cases hlists : lists ds key with
    | false => exact (descend_none _ _).trans (descend_none _ _).symm
    | true =>
      -- A listed key is a declared child, so it is not the new one.
      have hmem : key ∈ g.allChildren :=
        hds ((lists_iff fun c hc => hg.str_of_mem_allChildren (hds hc)).1 hlists)
      have hne : key ≠ .str r := by
        rintro rfl
        exact hchild hmem
      rw [if_pos rfl, if_pos rfl, definitions_withRoot_of_ne hne]
      rcases g.definitions_cases key with ⟨ds', hget, hds'⟩ | ⟨-, hnone⟩
      · rw [hds']
        refine ih ?_
        intro c hc
        have hlisted : c ∈ g.childrenOf key := by rwa [childrenOf, hget]
        exact mem_allChildren hlisted
      · rw [hnone]
        rfl

/-- Going down from the new key is going down from the top. -/
theorem descend_root (hg : g.Textual) (hkey : .str r ∉ g.keys) (hchild : .str r ∉ g.allChildren)
    {keys : List Value} (hne : keys ≠ []) :
    (g.withRoot r).descend [⟨.object, g.keys⟩] keys = g.below keys := by
  cases keys with
  | nil => exact absurd rfl hne
  | cons top rest =>
    have htexts : ∀ c ∈ [(⟨.object, g.keys⟩ : Definition)].flatMap (·.children),
        ∃ s, c = .str s := by
      intro c hc
      rw [List.flatMap_singleton] at hc
      obtain ⟨e, he, rfl⟩ := List.mem_map.1 hc
      exact hg.keys e he
    have hlisted : lists [⟨.object, g.keys⟩] top = true ↔ top ∈ g.keys := by
      rw [lists_iff htexts, List.flatMap_singleton]
    rw [descend_cons, pick, below]
    cases hget : g.get? top with
    | none =>
      have hnot : ¬ lists [⟨.object, g.keys⟩] top = true :=
        fun h => hg.get?_eq_none_iff.1 hget (hlisted.1 h)
      rw [if_neg hnot]
      exact (descend_none _ _).trans (descend_none _ _).symm
    | some ds =>
      have hmem : top ∈ g.keys := by
        refine Classical.byContradiction fun hnot => ?_
        rw [hg.get?_eq_none_iff.2 hnot] at hget
        cases hget
      have hother : top ≠ .str r := by
        rintro rfl
        exact hkey hmem
      have hds : (g.withRoot r).definitions top = .ok ds := by
        rw [definitions_withRoot_of_ne hother, definitions, hget]
      rw [if_pos (hlisted.2 hmem), hds]
      refine descend_withRoot hchild ?_ hg rest
      intro c hc
      have hlisted : c ∈ g.childrenOf top := by rwa [childrenOf, hget]
      exact mem_allChildren hlisted

end

/-- The key that is looked for: a pair's own, or that of the nearest pair. -/
def targetOf (visits : List Tree.Visit) (id : Nat) (t : Tree) : Value :=
  if t.isPair then keyValue t else (ancestorKeys visits id).headD .null

/-- The number of keys of the path that is looked for: those of the pairs around, and one more for a
pair. -/
def lengthTo (visits : List Tree.Visit) (id : Nat) (t : Tree) : Int :=
  (ancestorKeys visits id).length + if t.isPair then 1 else 0

/-- The definitions of a node are those that the search from a key above all others finds. -/
theorem matchNode_eq_search_withRoot (hg : g.Textual) {r : String} (hkey : .str r ∉ g.keys)
    (hchild : .str r ∉ g.allChildren) (d : Document) (v : Tree.Visit)
    (hunder : v.node.isPair = true ∨ ancestorKeys d.visits v.id ≠ []) :
    g.matchNode d.visits v.id v.node =
        (g.withRoot r).search (.str r :: (ancestorKeys d.visits v.id).reverse)
          (targetOf d.visits v.id v.node) (lengthTo d.visits v.id v.node + 1) ∧
      ∀ fault, g.matchNode d.visits v.id v.node = .error fault →
        ∃ key, fault = .undefinedKey key := by
  refine ⟨?_, fun fault h => matchNode_fault hg.textChildren h⟩
  have hroot := get?_withRoot_self (hg.get?_eq_none_iff.2 hkey)
  have htexts := hg.textChildren_withRoot (r := r)
  rw [matchNode_eq_below hg.textChildren, keysTo, targetOf, lengthTo]
  cases hpair : v.node.isPair with
  | true =>
      rw [if_pos rfl, if_pos rfl, if_pos rfl]
      have hsearch := search_eq_descend htexts (Value.isName_str r)
        (ancestorKeys d.visits v.id).reverse (keyValue v.node) (Or.inl rfl)
      rw [List.append_nil, List.length_reverse] at hsearch
      rw [← descend_root hg hkey hchild (by simp), Int.add_assoc]
      rw [hroot] at hsearch
      exact hsearch.symm
  | false =>
      rw [hpair] at hunder
      rw [if_neg Bool.false_ne_true, if_neg Bool.false_ne_true, if_neg Bool.false_ne_true,
        List.append_nil]
      cases hkeys : ancestorKeys d.visits v.id with
      | nil =>
          rcases hunder with h | h
          · cases h
          · exact absurd hkeys h
      | cons nearest outer =>
          have hsearch := search_eq_descend htexts (Value.isName_str r) outer.reverse
            nearest (Or.inr rfl)
          rw [List.length_reverse, hroot] at hsearch
          rw [List.reverse_cons, ← descend_root hg hkey hchild (by simp), List.headD_cons,
            List.length_cons, Int.add_zero]
          exact hsearch.symm

theorem matchNode_eq_search_withRoot_ports :
    ∃ set d v w, DocumentSet.parse portText [] = .ok set ∧ d ∈ set.documents ∧
      portGraph.Textual ∧ .str "top" ∉ portGraph.keys ∧ .str "top" ∉ portGraph.allChildren ∧
      (v ∈ d.visits ∧ ancestorKeys d.visits v.id = [] ∧ v.node.isPair = true ∧
        (portGraph.matchNode d.visits v.id v.node).toOption.map (·.map (·.type)) =
          some [.object, .object] ∧
        portGraph.matchNode d.visits v.id v.node =
          (portGraph.withRoot "top").search [.str "top"] (.str "host") 2) ∧
      (w ∈ d.visits ∧ ancestorKeys d.visits w.id = [.str "port", .str "link", .str "host"] ∧
        w.node.isPair = false ∧ (portGraph.matchNode d.visits w.id w.node).toOption.isNone ∧
        portGraph.matchNode d.visits w.id w.node = (portGraph.withRoot "top").search
          [.str "top", .str "host", .str "link", .str "port"] (.str "port") 4) := by
  have hnames : ∀ keys : List String, ∀ key ∈ keys.map Value.str, key.IsName := by
    intro keys key hkey
    obtain ⟨s, -, rfl⟩ := List.mem_map.1 hkey
    exact Value.isName_str s
  have hread : ∃ set ∈ (DocumentSet.parse portText []).toOption, ∃ d ∈ set.documents,
      (∃ v ∈ d.visits, (ancestorKeys d.visits v.id).isEmpty ∧ v.node.keyText? = some "host" ∧
        (portGraph.matchNode d.visits v.id v.node).toOption.map (·.map (·.type)) =
          some [.object, .object]) ∧
      ∃ w ∈ d.visits, Value.sameList (["port", "link", "host"].map Value.str)
          (ancestorKeys d.visits w.id) = true ∧ w.node.isPair = false ∧
        (portGraph.matchNode d.visits w.id w.node).toOption.isNone := by
    decide +kernel
  obtain ⟨set, hset, d, hd, ⟨v, hv, hkeys, hhost, htypes⟩, w, hw, hkeys', hnode, hnone⟩ := hread
  have hkey : .str "top" ∉ portGraph.keys := by simp [portGraph, Graph.keys]
  have hchild : .str "top" ∉ portGraph.allChildren := by simp [portGraph, allChildren]
  have hempty : ancestorKeys d.visits v.id = [] := List.isEmpty_iff.1 hkeys
  have hchain : ancestorKeys d.visits w.id = [.str "port", .str "link", .str "host"] :=
    ((Value.sameList_iff_of_isName (hnames _)).1 hkeys').symm
  have hpair : v.node.isPair = true := keyText?_eq_some hhost
  have hfirst := (matchNode_eq_search_withRoot textual_portGraph hkey hchild d v (Or.inl hpair)).1
  have hsecond := (matchNode_eq_search_withRoot textual_portGraph hkey hchild d w
    (Or.inr (by rw [hchain]; exact List.cons_ne_nil _ _))).1
  have htarget : keyValue v.node = .str "host" := by rw [keyValue, hhost]
  rw [targetOf, lengthTo, hpair, hempty, if_pos rfl, if_pos rfl, htarget] at hfirst
  rw [targetOf, lengthTo, hnode, hchain, if_neg Bool.false_ne_true,
    if_neg Bool.false_ne_true] at hsecond
  exact ⟨set, d, v, w, Outcome.toOption_eq_some.1 hset, hd, textual_portGraph, hkey, hchild,
    ⟨hv, hempty, hpair, htypes, hfirst⟩, hw, hchain, hnode, hnone, hsecond⟩

end Graph
end YamlServer
