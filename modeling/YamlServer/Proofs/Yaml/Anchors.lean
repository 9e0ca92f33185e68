import YamlServer.Proofs.Outcome
import YamlServer.Proofs.Yaml.Brackets
import YamlServer.Yaml.Node

/-!
# Anchors and the documents that break their rule

In a document an anchor stands once, and an alias stands after the anchor it names. Composing stops
at the first event that breaks this. Since events are well bracketed, composing comes past every
event before it, so the fault of that event is the one that composing reports.

* `anchorFault?`: the fault of the first event that breaks the rule.
* `NodeReader.sound`: composing a node comes to that fault, or past all events of the node.
* `Composed.faults_ofEvents`: the faults of the composed documents are that fault, or else the one
  by which the events stopped.
-/

namespace YamlServer
namespace Yaml

/-! ## The rule -/

/-- The anchors known after a node with these properties. -/
def Properties.note (p : Properties) (offset : Nat) (known : List String) :
    Except Fault (List String) :=
  match p.anchor with
  | none => .ok known
  | some name =>
    if known.contains name then .error ⟨.anchor (.duplicateAnchor name), offset⟩
    else .ok (name :: known)

/-- The anchors known after an event, or the fault of an anchor that stands twice or an alias that
names none. -/
def Event.note (e : Event) (known : List String) : Except Fault (List String) :=
  match e.kind with
  -- Anchors do not outlive their document.
  | .documentStart => .ok []
  | .alias name =>
    if known.contains name then .ok known
    else .error ⟨.anchor (.undefinedAlias name), e.start.index⟩
  | .scalar p _ _ | .sequenceStart p | .mappingStart p => p.note e.start.index known
  | _ => .ok known

def anchorFault? (known : List String) : List Event → Option Fault
  | [] => none
  | e :: rest =>
    match e.note known with
    | .error f => some f
    | .ok known => anchorFault? known rest

theorem anchorFault?_error {known : List String} {e : Event} {rest : List Event} {f : Fault}
    (h : e.note known = .error f) : anchorFault? known (e :: rest) = some f := by
  rw [anchorFault?, h]

theorem anchorFault?_ok {known known' : List String} {e : Event} {rest : List Event}
    (h : e.note known = .ok known') :
    anchorFault? known (e :: rest) = anchorFault? known' rest := by
  rw [anchorFault?, h]

namespace NodeReader

def known (c : NodeReader) : List String :=
  c.anchors.map (·.1)

def fault? (c : NodeReader) : Option Fault :=
  anchorFault? c.known c.events

@[simp]
theorem lookup_isSome (c : NodeReader) (name : String) :
    (c.anchors.lookup name).isSome = c.known.contains name := by
  rw [known]
  -- On the anchors: both sides look for the first of the name.
  induction c.anchors with
  | nil => rfl
  | cons a rest ih =>
    rw [List.lookup_cons, List.map_cons, List.contains_cons]
    cases hname : name == a.1 with
    | true => rfl
    | false => simpa using ih

/-- The end of the stream does not lie ahead. -/
def Unended (c : NodeReader) : Prop :=
  ∀ e ∈ c.events, e.kind ≠ .streamEnd

/-- What lies ahead of one state of the reader still does in another: the fault, and the end of the
stream. -/
structure Ahead (c c' : NodeReader) : Prop where
  fault : c'.fault? = c.fault?
  unended : c'.Unended → c.Unended

theorem Ahead.refl (c : NodeReader) : Ahead c c :=
  ⟨rfl, fun hend => hend⟩

theorem Ahead.trans {c c' c'' : NodeReader} (h : Ahead c c') (h' : Ahead c' c'') : Ahead c c'' :=
  ⟨h'.fault.trans h.fault, fun hend => h.unended (h'.unended hend)⟩

/-- Passing an event that breaks no rule and does not end the stream. -/
theorem Ahead.pass {c c' : NodeReader} {e : Event} {rest : List Event} (hc : c.events = e :: rest)
    (hc' : c'.events = rest) (hnote : e.note c.known = .ok c'.known) (hkind : e.kind ≠ .streamEnd) :
    Ahead c c' := by
  constructor
  · rw [fault?, fault?, hc, hc', anchorFault?_ok hnote]
  · intro hend e' he'
    rw [hc] at he'
    rcases List.mem_cons.1 he' with rfl | he'
    · exact hkind
    · exact hend e' (hc' ▸ he')

/-- What a reader of nodes does to the fault that lies ahead: it comes to it, or it comes past its
part of the events and leaves the end of `base`, or it runs out of events before the end of the
stream. -/
def Meets {α : Type} (after : α → NodeReader) (c : NodeReader) (due : List Frame)
    (base : List Event) : Except Stop α → Prop
  | .ok a => Ahead c (after a) ∧ Bracketed due (after a).events ∧ (after a).events <:+ base
  | .error (.fault f) => c.fault? = some f
  | .error .exhausted => c.fault? = none ∧ c.Unended

namespace Meets

variable {α β : Type} {after : α → NodeReader} {after' : β → NodeReader} {c c' : NodeReader}
variable {due due' : List Frame} {base base' : List Event} {x : Except Stop α}

/-- Events that are passed leave the rest ahead. -/
theorem step (h : Meets after c' due base x) (hahead : Ahead c c') :
    Meets after c due base x := by
  cases x with
  | ok a => exact ⟨hahead.trans h.1, h.2⟩
  | error stop =>
    cases stop with
    | fault f => exact hahead.fault.symm.trans h
    | exhausted => exact ⟨hahead.fault.symm.trans h.1, hahead.unended h.2⟩

theorem bind {k : α → Except Stop β} (h : Meets after c due base x)
    (hk : ∀ a, Bracketed due (after a).events → (after a).events <:+ base →
      Meets after' (after a) due' base' (k a)) : Meets after' c due' base' (x >>= k) := by
  cases x with
  | ok a =>
    rcases h with ⟨hahead, hbracketed, hleft⟩
    exact (hk a hbracketed hleft).step hahead
  | error stop =>
    cases stop with
    | fault f => exact h
    | exhausted => exact h

/-- A reader that has come to the end of its events. -/
theorem exhausted (h : c.events = []) :
    Meets after c due base (.error .exhausted : Except Stop α) := by
  constructor
  · rw [fault?, h]
    rfl
  · intro e he
    rw [h] at he
    cases he

end Meets

/-- A node with properties: a fault if its anchor is known, and otherwise what follows with the
anchor noted. -/
theorem meets_requireNew {α : Type} {after : α → NodeReader} {c : NodeReader} {due : List Frame}
    {base : List Event} {p : Properties} {e : Event} {rest : List Event}
    {k : Unit → Except Stop α}
    (hc : c.events = e :: rest) (hnote : e.note c.known = p.note e.start.index c.known)
    (hkind : e.kind ≠ .streamEnd)
    (hk : Meets after ({ c with events := rest }.number p.anchor).2 due base (k ())) :
    Meets after c due base (requireNew p e c >>= k) := by
  -- The reader asks for the anchor by its entry, the rule by its name.
  cases hanchor : p.anchor with
  | none =>
    have hnew : requireNew p e c = .ok () := by rw [requireNew, hanchor]
    have hok : e.note c.known = .ok c.known := by rw [hnote, Properties.note, hanchor]
    rw [hnew]
    rw [hanchor] at hk
    exact hk.step (.pass hc rfl hok hkind)
  | some name =>
    rw [hanchor] at hk
    cases hknown : c.known.contains name with
    | true =>
      have hnew : requireNew p e c =
          .error (.fault ⟨.anchor (.duplicateAnchor name), e.start.index⟩) := by
        rw [requireNew, hanchor]
        dsimp only
        rw [lookup_isSome, hknown]
        rfl
      have herror : e.note c.known =
          .error ⟨.anchor (.duplicateAnchor name), e.start.index⟩ := by
        rw [hnote, Properties.note, hanchor]
        dsimp only
        rw [hknown]
        rfl
      rw [hnew]
      change c.fault? = some _
      rw [fault?, hc, anchorFault?_error herror]
    | false =>
      have hnew : requireNew p e c = .ok () := by
        rw [requireNew, hanchor]
        dsimp only
        rw [lookup_isSome, hknown]
        rfl
      have hok : e.note c.known = .ok (name :: c.known) := by
        rw [hnote, Properties.note, hanchor]
        dsimp only
        rw [hknown]
        rfl
      rw [hnew]
      exact hk.step (.pass hc rfl hok hkind)

/-- What a reader with the given number of steps does, if these suffice for the events. -/
structure Sound (fuel : Nat) : Prop where
  node : ∀ {c : NodeReader} {due : List Frame} (base : List Event),
    Bracketed (.node :: due) c.events → c.events.drop 1 <:+ base →
    2 * c.events.length ≤ fuel + 1 → Meets (·.2) c due base (NodeReader.node fuel c)
  items : ∀ {c : NodeReader} {due : List Frame} (base : List Event),
    Bracketed (.items :: due) c.events → c.events <:+ base → 2 * c.events.length ≤ fuel →
    Meets (·.2.2) c due base (NodeReader.items fuel c)
  entries : ∀ {c : NodeReader} {due : List Frame} (base : List Event),
    Bracketed (.entries :: due) c.events → c.events <:+ base → 2 * c.events.length ≤ fuel →
    Meets (·.2.2) c due base (NodeReader.entries fuel c)

theorem sound_zero : Sound 0 := by
  have hnil : ∀ {c : NodeReader}, 2 * c.events.length ≤ 1 → c.events = [] := by
    intro c hlength
    exact List.eq_nil_of_length_eq_zero (by omega)
  refine ⟨?_, ?_, ?_⟩
  · intro c due base _ _ hfuel
    exact Meets.exhausted (hnil hfuel)
  · intro c due base _ _ hfuel
    exact Meets.exhausted (hnil (Nat.le_trans hfuel (Nat.zero_le 1)))
  · intro c due base _ _ hfuel
    exact Meets.exhausted (hnil (Nat.le_trans hfuel (Nat.zero_le 1)))

theorem node_meets {fuel : Nat} {c : NodeReader} {due : List Frame} (ih : Sound fuel)
    (base : List Event) (hbracketed : Bracketed (.node :: due) c.events)
    (hbase : c.events.drop 1 <:+ base) (hfuel : 2 * c.events.length ≤ fuel + 1 + 1) :
    Meets (·.2) c due base (node (fuel + 1) c) := by
  rw [node]
  cases hc : c.events with
  | nil => exact Meets.exhausted hc
  | cons e rest =>
    rw [hc] at hbracketed hbase hfuel
    rcases hbracketed.node with ⟨inner, hopening, hrest⟩
    have hleft : rest <:+ base := hbase
    simp only [List.length_cons] at hfuel
    -- A node and the collection in it take a step each for one event, hence the factor of two.
    have hsteps : 2 * rest.length ≤ fuel := by omega
    dsimp only
    split
    · rename_i name hkind
      rw [hkind] at hopening
      cases hopening
      have hknown := lookup_isSome c name
      split
      · rename_i hlookup
        rw [hlookup] at hknown
        have herror : e.note c.known = .error ⟨.anchor (.undefinedAlias name), e.start.index⟩ := by
          rw [Event.note, hkind]
          dsimp only
          rw [← hknown]
          rfl
        change c.fault? = some _
        rw [fault?, hc, anchorFault?_error herror]
      · rename_i target hlookup
        rw [hlookup] at hknown
        have hok : e.note c.known = .ok c.known := by
          rw [Event.note, hkind]
          dsimp only
          rw [← hknown]
          rfl
        refine ⟨.pass hc rfl hok ?_, hrest, hleft⟩
        rw [hkind]
        exact EventKind.noConfusion
    · rename_i p content style hkind
      rw [hkind] at hopening
      cases hopening
      refine meets_requireNew hc (by rw [Event.note, hkind]) (hkind ▸ EventKind.noConfusion) ?_
      exact ⟨.refl _, hrest, hleft⟩
    · rename_i p hkind
      rw [hkind] at hopening
      cases hopening
      refine meets_requireNew hc (by rw [Event.note, hkind]) (hkind ▸ EventKind.noConfusion) ?_
      refine Meets.bind (ih.items base hrest hleft hsteps) ?_
      intro a hafter hle
      exact ⟨.refl _, hafter, hle⟩
    · rename_i p hkind
      rw [hkind] at hopening
      cases hopening
      refine meets_requireNew hc (by rw [Event.note, hkind]) (hkind ▸ EventKind.noConfusion) ?_
      refine Meets.bind (ih.entries base hrest hleft hsteps) ?_
      intro a hafter hle
      exact ⟨.refl _, hafter, hle⟩
    · -- No other event opens a node.
      rename_i halias hscalar hsequence hmapping
      cases hkind : e.kind with
      | «alias» name => exact absurd hkind (halias name)
      | scalar p content style => exact absurd hkind (hscalar p content style)
      | sequenceStart p => exact absurd hkind (hsequence p)
      | mappingStart p => exact absurd hkind (hmapping p)
      | documentStart | documentEnd | streamEnd | sequenceEnd | mappingEnd =>
        rw [hkind] at hopening
        cases hopening

/-- Passing the end of a collection changes no anchors. -/
theorem meets_end {α : Type} {after : α → NodeReader} {c : NodeReader} {due : List Frame}
    {base : List Event} {e : Event} {rest : List Event} {a : α} (hc : c.events = e :: rest)
    (hnote : e.note c.known = .ok c.known) (hkind : e.kind ≠ .streamEnd)
    (hafter : after a = { c with events := rest })
    (hrest : Bracketed due rest) (hbase : c.events <:+ base) : Meets after c due base (.ok a) := by
  refine ⟨?_, ?_, ?_⟩
  · rw [hafter]
    exact .pass hc rfl hnote hkind
  · rw [hafter]
    exact hrest
  · rw [hafter]
    exact (hc ▸ List.suffix_cons e rest).trans hbase

theorem items_meets {fuel : Nat} {c : NodeReader} {due : List Frame} (ih : Sound fuel)
    (base : List Event) (hbracketed : Bracketed (.items :: due) c.events)
    (hbase : c.events <:+ base) (hfuel : 2 * c.events.length ≤ fuel + 1) :
    Meets (·.2.2) c due base (items (fuel + 1) c) := by
  rw [items]
  split
  · rename_i hc
    exact Meets.exhausted hc
  · rename_i e rest hc
    rw [hc] at hbracketed
    have hcount : c.events.length = rest.length + 1 := by rw [hc, List.length_cons]
    have htail : c.events.drop 1 = rest := by rw [hc, List.drop_one, List.tail_cons]
    have hrestBase : rest <:+ base := (hc ▸ List.suffix_cons e rest).trans hbase
    -- The end of the sequence, or an item with the others after it.
    rcases hbracketed.items with ⟨hkind, hrest⟩ | ⟨hkind, hitem⟩
    · rw [if_pos (beq_iff_eq.2 hkind)]
      exact meets_end hc (by rw [Event.note, hkind]) (hkind ▸ EventKind.noConfusion) rfl hrest hbase
    · rw [if_neg (fun hend => hkind (beq_iff_eq.1 hend))]
      rw [← hc] at hitem
      refine Meets.bind (ih.node rest hitem (htail ▸ List.suffix_refl rest) hfuel) ?_
      intro item hitems hleft
      have hlength := hleft.length_le
      refine Meets.bind (ih.items base hitems (hleft.trans hrestBase) (by omega)) ?_
      intro more hafter hle
      exact ⟨.refl _, hafter, hle⟩

theorem entries_meets {fuel : Nat} {c : NodeReader} {due : List Frame} (ih : Sound fuel)
    (base : List Event) (hbracketed : Bracketed (.entries :: due) c.events)
    (hbase : c.events <:+ base) (hfuel : 2 * c.events.length ≤ fuel + 1) :
    Meets (·.2.2) c due base (entries (fuel + 1) c) := by
  rw [entries]
  split
  · rename_i hc
    exact Meets.exhausted hc
  · rename_i e rest hc
    rw [hc] at hbracketed
    have hcount : c.events.length = rest.length + 1 := by rw [hc, List.length_cons]
    have htail : c.events.drop 1 = rest := by rw [hc, List.drop_one, List.tail_cons]
    have hrestBase : rest <:+ base := (hc ▸ List.suffix_cons e rest).trans hbase
    rcases hbracketed.entries with ⟨hkind, hrest⟩ | ⟨hkind, hkey⟩
    · rw [if_pos (beq_iff_eq.2 hkind)]
      exact meets_end hc (by rw [Event.note, hkind]) (hkind ▸ EventKind.noConfusion) rfl hrest hbase
    · rw [if_neg (fun hend => hkind (beq_iff_eq.1 hend))]
      rw [← hc] at hkey
      -- The number that the pair takes does not matter here.
      have hfirst := ih.node (c := { c with next := c.next + 1 }) rest hkey
        (htail ▸ List.suffix_refl rest) hfuel
      refine Meets.bind (hfirst.step ⟨rfl, fun hend => hend⟩) ?_
      intro key hvalue hleft
      have hlength := hleft.length_le
      refine Meets.bind (ih.node rest hvalue ((List.drop_suffix 1 _).trans hleft) (by omega)) ?_
      intro value hentries hleft'
      have hlength' := hleft'.length_le
      refine Meets.bind (ih.entries base hentries (hleft'.trans hrestBase) (by omega)) ?_
      intro more hafter hle
      exact ⟨.refl _, hafter, hle⟩

theorem sound (fuel : Nat) : Sound fuel := by
  -- The three readers call each other with a step less, so one induction serves them all.
  induction fuel with
  | zero => exact sound_zero
  | succ fuel ih => exact ⟨node_meets ih, items_meets ih, entries_meets ih⟩

theorem root_meets {events : List Event} {due : List Frame}
    (h : Bracketed (.node :: due) events) :
    Meets (·.2) ⟨events, 0, []⟩ due events (root events) :=
  (sound (steps events)).node events h (List.drop_suffix 1 events)
    (Nat.le_succ_of_le (Nat.le_succ _))

end NodeReader

/-! ## Documents -/

namespace Composed

/-- The fault of a document is the only one, if no other document follows. -/
theorem filterMap_fault_singleton (c : Composed) : [c].filterMap (·.fault) = c.fault.toList := by
  cases hfault : c.fault with
  | none => simp [hfault]
  | some f => simp [hfault]

/-- Composing shows the first fault: that of an anchor or an alias if there is one, and otherwise
the one by which the events stopped. -/
theorem faults_ofEventsFrom {size : Nat} {halt : Option Halt} {fuel : Nat} {events : List Event}
    (known : List String) (hbracketed : Bracketed [.stream] events)
    (hend : ∀ e ∈ events, e.kind = .streamEnd → haltFault? halt = none)
    (hfuel : events.length < fuel) :
    (ofEventsFrom size halt fuel events).filterMap (·.fault) =
      ((anchorFault? known events).or (haltFault? halt)).toList := by
  -- On the documents. The anchors known before one do not matter, since its start forgets them.
  induction fuel generalizing events known with
  | zero => cases hfuel
  | succ fuel ih =>
    cases events with
    | nil =>
      rw [ofEventsFrom]
      cases haltFault? halt with
      | none => rfl
      | some f => rfl
    | cons e rest =>
      rw [ofEventsFrom]
      rcases hbracketed.stream with ⟨hkind, rfl⟩ | ⟨hkind, hrest⟩
      · have hnote : e.note known = .ok known := by rw [Event.note, hkind]
        rw [if_pos (beq_iff_eq.2 hkind), hend e List.mem_cons_self hkind,
          anchorFault?_ok hnote]
        rfl
      · have hnote : e.note known = .ok [] := by rw [Event.note, hkind]
        have hstart : ¬ (e.kind == .streamEnd) = true := by
          rw [hkind]
          decide
        have hahead : (⟨rest, 0, []⟩ : NodeReader).fault? = anchorFault? [] rest := rfl
        have hroot := NodeReader.root_meets hrest
        rw [if_neg hstart, anchorFault?_ok hnote, ← hahead]
        -- Composing the root comes to the fault, or runs out of events, or comes past its own.
        cases hnode : NodeReader.root rest with
        | error stop =>
          rw [hnode] at hroot
          cases stop with
          | fault f =>
            have hfault : (⟨rest, 0, []⟩ : NodeReader).fault? = some f := hroot
            rw [hfault]
            rfl
          | exhausted =>
            have hfault : (⟨rest, 0, []⟩ : NodeReader).fault? = none := hroot.1
            rw [hfault, Option.none_or]
            exact filterMap_fault_singleton _
        | ok composed =>
          rw [hnode] at hroot
          rcases hroot with ⟨hahead, hafter, hleft⟩
          rcases composed with ⟨root, after⟩
          dsimp only at hahead hafter hleft ⊢
          rw [← hahead.fault, NodeReader.fault?]
          cases hevents : after.events with
          | nil => exact filterMap_fault_singleton _
          | cons stop more =>
            rw [hevents] at hafter hleft
            rcases hafter.documentEnd with ⟨hstop, hmore⟩
            have hnote' : stop.note after.known = .ok after.known := by
              rw [Event.note, hstop]
            have hlength := hleft.length_le
            simp only [List.length_cons] at hlength hfuel
            have hsub : ∀ e' ∈ more, e' ∈ e :: rest := fun e' he' =>
              List.mem_cons_of_mem _ (hleft.subset (List.mem_cons_of_mem _ he'))
            rw [anchorFault?_ok hnote', List.filterMap_cons]
            exact ih after.known hmore (fun e' he' => hend e' (hsub e' he')) (by omega)

/-- The faults of the documents of a token stream. -/
theorem faults_ofEvents (size : Nat) (s : TokenStream) :
    (ofEvents size (EventStream.ofTokens s)).filterMap (·.fault) =
      ((anchorFault? [] (EventStream.ofTokens s).events).or
        (haltFault? (EventStream.ofTokens s).halt)).toList := by
  refine faults_ofEventsFrom [] (EventStream.bracketed_ofTokens s) ?_ (Nat.lt_succ_self _)
  intro e he hkind
  rw [(EventStream.run_ofTokens s).halt_of_streamEnd he hkind]
  rfl

end Composed
end Yaml
end YamlServer
