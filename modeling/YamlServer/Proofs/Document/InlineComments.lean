import Mathlib.Data.List.Perm.Subperm
import Mathlib.Data.Prod.Lex
import Mathlib.Data.Set.Finite.Lemmas
import YamlServer.Proofs.Comment.Line
import YamlServer.Proofs.Document.Comments
import YamlServer.Proofs.Document.Containment
import YamlServer.Proofs.Tree.Numbering
import YamlServer.Proofs.Yaml.EventMark

/-!
# The hosts of comments behind content

A comment behind content goes to the node that ends last before it on its line. But the line of the
node and that of the comment are counted by different breaks, and the node is found by these counts.
So the rule holds where no lone break stands before the end of that node. A lone break before it
hides the node, and lets the comment go to one that ends that many lines further up.

* `DocumentSet.hosts_of_parse`: the offsets that decide, and when those on the comment's line do.
-/

namespace YamlServer

open Yaml

/-! ## Nodes by their numbers -/

namespace Tree

theorem info?_image {a : Attached} {n : Node} {t : Tree} (h : image a n = .ok t) :
    t.info? = some (infoOf a n) := by
  cases n with
  | scalar =>
    rcases Outcome.bind_eq_ok.1 h with ⟨value, -, hlast⟩
    cases hlast
    rfl
  | sequence =>
    rcases Outcome.bind_eq_ok.1 h with ⟨ts, -, hlast⟩
    cases hlast
    rfl
  | mapping =>
    rcases Outcome.bind_eq_ok.1 h with ⟨ts, -, hlast⟩
    cases hlast
    rfl
  | «alias» =>
    cases h
    rfl

def numberedInfos (t : Tree) : List (Nat × Info) :=
  t.visits.filterMap fun v => v.node.info?.map fun info => (v.id, info)

theorem mem_numberedInfos {t : Tree} {i : Nat} {info : Info} :
    (i, info) ∈ t.numberedInfos ↔ ∃ v ∈ t.visits, v.id = i ∧ v.node.info? = some info := by
  rw [numberedInfos, List.mem_filterMap]
  constructor
  · rintro ⟨v, hv, hinfo⟩
    rcases Option.map_eq_some_iff.1 hinfo with ⟨info', hinfo', heq⟩
    cases heq
    exact ⟨v, hv, rfl, hinfo'⟩
  · rintro ⟨v, hv, rfl, hinfo⟩
    exact ⟨v, hv, by rw [hinfo]; rfl⟩

@[simp]
theorem map_numberedInfos (t : Tree) : t.numberedInfos.map Prod.snd = t.infos := by
  rw [numberedInfos, List.map_filterMap, infos, walk, List.filterMap_map]
  refine List.filterMap_congr ?_
  intro v _
  rw [Option.map_map]
  exact Option.map_id'

/-- A tree lists the nodes that it was made from, by their numbers. -/
theorem exists_visit_iff {a : Attached} {root : Node} {t : Tree} (hnumbered : root.Numbered 0)
    (hids : (root.walk.map Node.id).Nodup) (ht : image a root = .ok t) {i : Nat} {info : Info} :
    (∃ v ∈ t.visits, v.id = i ∧ v.node.info? = some info) ↔
      ∃ n ∈ root.walk, n.id = i ∧ infoOf a n = info := by
  have hnodup : (root.walk.map fun n => (n.id, infoOf a n)).Nodup := by
    refine List.Nodup.of_map Prod.fst ?_
    rwa [List.map_map]
  have hsubset : (root.walk.map fun n => (n.id, infoOf a n)) ⊆ t.numberedInfos := by
    intro x hx
    rcases List.mem_map.1 hx with ⟨n, hn, rfl⟩
    rcases placed root [] (0, t) ⟨hnumbered, ht⟩ n hn with ⟨-, p, hp, hid, htree⟩
    have hvisit : p.visit ∈ t.visits := by
      rw [visits_eq_places]
      exact List.mem_map_of_mem hp
    exact mem_numberedInfos.2 ⟨p.visit, hvisit, hid, info?_image htree⟩
  -- Every node has its place, and there are no more places than nodes.
  have hlength : t.numberedInfos.length ≤ (root.walk.map fun n => (n.id, infoOf a n)).length := by
    have hinfos := congrArg List.length (infos_image a root t ht)
    rw [← map_numberedInfos, List.length_map, List.length_map] at hinfos
    rw [hinfos, List.length_map]
  have hperm := (List.subperm_of_subset hnodup hsubset).perm_of_length_le hlength
  rw [← mem_numberedInfos, ← hperm.mem_iff, List.mem_map]
  simp only [Prod.mk.injEq]

end Tree

/-! ## Hosts -/

namespace Document

variable {d : Document} {P Q : Nat → Prop} {v w : Tree.Visit} {e f : Nat} {c : Comment}

/-- No node of a document ends at an offset with `P`. -/
def NoneEnds (d : Document) (P : Nat → Prop) : Prop :=
  ∀ v ∈ d.visits, ∀ e, v.node.stop? = some e → ¬ P e

/-- Of the nodes that end at an offset with `P`, the one that ends last, and of those the last one
listed. -/
structure EndsLast (d : Document) (P : Nat → Prop) (v : Tree.Visit) (stop : Nat) : Prop where
  listed : v ∈ d.visits
  stops : v.node.stop? = some stop
  holds : P stop
  last : ∀ u ∈ d.visits, ∀ e, u.node.stop? = some e → P e → e < stop ∨ e = stop ∧ u.id ≤ v.id

/-- A comment goes to the node that ends last at an offset with `P`, where it is the only one, or
behind the content if there is no such node. -/
inductive Hosts (d : Document) (P : Nat → Prop) (c : Comment) : Prop where
  | node (v : Tree.Visit) (stop : Nat) (hlast : d.EndsLast P v stop)
      (hhost : (.inline v.id, c) ∈ d.attachments)
      (htext : v.node.info?.bind Info.comment = some c.text)
  | trailing (hnone : d.NoneEnds P) (hhost : (.trailing, c) ∈ d.attachments)
      (htext : c.text ∈ Attached.blockLines d.comment)

theorem exists_endsLast (h : ¬ d.NoneEnds P) : ∃ v e, d.EndsLast P v e := by
  classical
  let ending := {v | v ∈ d.visits ∧ ∃ e, v.node.stop? = some e ∧ P e}
  have hfinite : ending.Finite := (List.finite_toSet d.visits).subset fun v hv => hv.1
  have hnonempty : ending.Nonempty := by
    simp only [NoneEnds, not_forall, not_not] at h
    rcases h with ⟨v, hv, e, he, hP⟩
    exact ⟨v, hv, e, he, hP⟩
  rcases Set.exists_max_image ending (fun v => toLex ((v.node.stop?).getD 0, v.id)) hfinite
    hnonempty with ⟨v, ⟨hv, e, he, hP⟩, hmax⟩
  refine ⟨v, e, hv, he, hP, ?_⟩
  intro u hu f hf hPf
  simpa [Prod.Lex.toLex_le_toLex, he, hf] using hmax u ⟨hu, f, hf, hPf⟩

namespace EndsLast

theorem unique (h : d.EndsLast P v e) (h' : d.EndsLast P w f) : e = f := by
  rcases h.last w h'.listed f h'.stops h'.holds with hlt | ⟨heq, -⟩
  · rcases h'.last v h.listed e h.stops h.holds with hlt' | ⟨heq', -⟩
    · exact absurd hlt (Nat.lt_asymm hlt')
    · exact heq'
  · exact heq.symm

/-- What ends last with `P` ends last with `Q` too, if its end has `Q` and the last end with `Q`
has `P`. -/
theorem of_last (h : d.EndsLast P v e) (h' : d.EndsLast Q w f) (hP : P f) (hQ : Q e) :
    d.EndsLast Q v e := by
  refine ⟨h.listed, h.stops, hQ, ?_⟩
  intro u hu g hg hQg
  have hfirst := h'.last u hu g hg hQg
  have hsecond := h.last w h'.listed f h'.stops hP
  omega

end EndsLast

/-- When offsets with `Q` give a comment the host that offsets with `P` give it. -/
theorem hosts_iff (hone : ∀ h h', (h, c) ∈ d.attachments → (h', c) ∈ d.attachments → h = h')
    (hids : ∀ v ∈ d.visits, ∀ w ∈ d.visits, v.id = w.id → v = w)
    (hup : ∀ e f, Q e → P e → e ≤ f → P f → Q f) (hP : d.Hosts P c) :
    d.Hosts Q c ↔ (∀ v e, d.EndsLast Q v e → P e) ∧ (d.NoneEnds Q → d.NoneEnds P) := by
  constructor
  · intro hQ
    cases hQ with
    | node v e hlast hhost htext =>
      cases hP with
      | node w f hlast' hhost' htext' =>
        have hid := hone _ _ hhost hhost'
        simp only [Comment.Host.inline.injEq] at hid
        have heq := hids v hlast.listed w hlast'.listed hid
        have hstop := hlast.stops
        rw [heq, hlast'.stops] at hstop
        cases hstop
        refine ⟨?_, fun hnone => absurd hlast.holds (hnone v hlast.listed _ hlast.stops)⟩
        intro u g hg
        rw [hg.unique hlast]
        exact hlast'.holds
      | trailing hnone hhost' htext' => cases hone _ _ hhost hhost'
    | trailing hnone hhost htext =>
      cases hP with
      | node w f hlast' hhost' htext' => cases hone _ _ hhost hhost'
      | trailing hnone' hhost' htext' =>
        refine ⟨?_, fun _ => hnone'⟩
        intro u g hg
        exact absurd hg.holds (hnone u hg.listed g hg.stops)
  · rintro ⟨hlasts, hnones⟩
    by_cases hnone : d.NoneEnds Q
    · cases hP with
      | node w f hlast' hhost' htext' =>
        exact absurd hlast'.holds (hnones hnone w hlast'.listed f hlast'.stops)
      | trailing hnone' hhost' htext' => exact .trailing hnone hhost' htext'
    · rcases exists_endsLast hnone with ⟨u, g, hg⟩
      have hPg := hlasts u g hg
      cases hP with
      | node w f hlast' hhost' htext' =>
        have hle := hlast'.last u hg.listed g hg.stops hPg
        have hQf := hup g f hg.holds hPg (by omega) hlast'.holds
        exact .node w f (hlast'.of_last hg hPg hQf) hhost' htext'
      | trailing hnone' hhost' htext' => exact absurd hPg (hnone' u hg.listed g hg.stops)

/-! ## The host that is found -/

namespace Shows

variable {x : Composed} {comments : List Comment} {root : Node}

theorem hostOf_mem (h : d.Shows x comments) (hc : c ∈ comments) :
    (Comment.hostOf x.root c, c) ∈ d.attachments := by
  rw [h.attachments_eq]
  exact List.mem_map.2 ⟨c, hc, rfl⟩

theorem host_unique (h : d.Shows x comments) (host host' : Comment.Host)
    (hhost : (host, c) ∈ d.attachments) (hhost' : (host', c) ∈ d.attachments) : host = host' := by
  rw [h.attachments_eq] at hhost hhost'
  rcases List.mem_map.1 hhost with ⟨y, -, hy⟩
  rcases List.mem_map.1 hhost' with ⟨y', -, hy'⟩
  cases hy
  cases hy'
  rfl

/-- A comment of a node is the text that the node shows. -/
theorem text?_inline (h : d.Shows x comments)
    (hids : ((x.root.elim [] Node.walk).map Node.id).Nodup)
    (hordered : comments.Pairwise Comment.Precedes) {id : Nat}
    (hhost : (.inline id, c) ∈ d.attachments) :
    (Attached.ofComments x.root comments).text? (.inline id) = some c.text := by
  have hone := h.length_hostTexts_inline hids hordered id
  have hmem : c.text ∈ d.hostTexts (.inline id) :=
    List.mem_map.2 ⟨_, List.mem_filter.2 ⟨hhost, beq_self_eq_true _⟩, rfl⟩
  rw [h.text?_eq]
  rcases htexts : d.hostTexts (.inline id) with _ | ⟨text, _ | ⟨next, rest⟩⟩
  · rw [htexts] at hmem
    cases hmem
  · rw [htexts] at hmem
    rw [List.mem_singleton.1 hmem]
    rfl
  · simp [htexts] at hone

/-- A comment behind content goes to the node that ends last at the offsets that fit it. -/
theorem hosts (h : d.Shows x comments) (hroot : x.root = some root)
    (hlisted : ∀ i info, (∃ v ∈ d.visits, v.id = i ∧ v.node.info? = some info) ↔
      ∃ n ∈ root.walk, n.id = i ∧ Tree.infoOf (Attached.ofComments x.root comments) n = info)
    (hids : root.walk.Pairwise fun m m' => m.id < m'.id)
    (hordered : comments.Pairwise Comment.Precedes)
    (hlines : ∀ y ∈ comments, '\n' ∉ y.text.toList)
    (hc : c ∈ comments) (hinline : c.inline = true) (hstart : root.span.start.index ≤ c.offset)
    (hP : ∀ n ∈ root.walk, P n.span.stop.index ↔ Comment.Fits c n) : d.Hosts P c := by
  have hpicked := Comment.picked_inlineHost? c hids
  have hhost := h.hostOf_mem hc
  rw [hroot, Comment.hostOf_inline hstart hinline] at hhost
  -- Where a node of the tree ends, a composed node of the same number does.
  have hnode : ∀ v ∈ d.visits, ∀ e, v.node.stop? = some e → P e →
      ∃ n ∈ root.walk, n.id = v.id ∧ n.span.stop.index = e ∧ Comment.Fits c n := by
    intro v hv e he hPe
    rcases Option.bind_eq_some_iff.1 he with ⟨info, hinfo, hstop⟩
    rcases (hlisted _ _).1 ⟨v, hv, rfl, hinfo⟩ with ⟨n, hn, hid, rfl⟩
    cases hstop
    exact ⟨n, hn, hid, rfl, (hP n hn).1 hPe⟩
  cases hbest : Comment.inlineHost? root.walk c with
  | none =>
    rw [hbest] at hhost
    refine .trailing ?_ hhost ?_
    · intro v hv e he hPe
      rcases hnode v hv e he hPe with ⟨n, hn, -, -, hfits⟩
      rcases hpicked.last n hn hfits with ⟨best, hsome, -⟩
      cases hbest.symm.trans hsome
    · have hshown : Attached.blockLines d.comment = d.hostTexts .trailing := by
        rw [comment, h.source]
        exact h.blockLines_text? hlines .trailing
      rw [hshown]
      exact List.mem_map.2 ⟨_, List.mem_filter.2 ⟨hhost, beq_self_eq_true _⟩, rfl⟩
  | some n =>
    rw [hbest] at hhost
    rcases hpicked.fits n hbest with ⟨hn, hfits⟩
    rcases (hlisted _ _).2 ⟨n, hn, rfl, rfl⟩ with ⟨v, hv, hid, hinfo⟩
    have hattached : (Comment.Host.inline v.id, c) ∈ d.attachments := hid ▸ hhost
    refine .node v n.span.stop.index ⟨hv, ?_, (hP n hn).2 hfits, ?_⟩ hattached ?_
    · rw [Tree.stop?, hinfo]
      rfl
    · intro u hu e he hPe
      rcases hnode u hu e he hPe with ⟨m, hm, hid', rfl, hfits'⟩
      rcases hpicked.last m hm hfits' with ⟨best, hsome, hby⟩
      cases hbest.symm.trans hsome
      rw [hid, ← hid']
      exact hby
    · have hnodup : ((x.root.elim [] Node.walk).map Node.id).Nodup := by
        rw [hroot]
        exact List.pairwise_map.2 (hids.imp Nat.ne_of_lt)
      rw [hinfo]
      exact h.text?_inline hnodup hordered hhost

end Shows
end Document

/-! ## Texts -/

namespace Comment

/-- An offset on the line of a comment, and before it. -/
def Beside (cs : List Char) (c : Comment) (offset : Nat) : Prop :=
  offset ≤ c.offset ∧ SameLine cs offset c.offset

/-- An offset before a comment that has as many breaks before it as the comment has line feeds. -/
def CountedBeside (cs : List Char) (c : Comment) (offset : Nat) : Prop :=
  offset ≤ c.offset ∧ lineFeeds cs offset + loneBreaks cs offset = lineFeeds cs c.offset

theorem beside_iff {cs : List Char} {c : Comment} {offset : Nat} :
    c.Beside cs offset ↔ offset ≤ c.offset ∧ lineFeeds cs offset = lineFeeds cs c.offset :=
  and_congr_right sameLine_iff

/-- The two agree where no lone break comes first. -/
theorem countedBeside_iff {cs : List Char} {c : Comment} {offset : Nat}
    (h : c.Beside cs offset) :
    c.CountedBeside cs offset ↔ ∀ k < offset, ¬ LoneBreak cs k := by
  rcases beside_iff.1 h with ⟨hle, hfeeds⟩
  rw [CountedBeside, hfeeds, Nat.add_eq_left, loneBreaks_eq_zero_iff]
  exact and_iff_right hle

/-- Behind an offset on its line the counts are still those of the line. -/
theorem Beside.of_le {cs : List Char} {c : Comment} {e f : Nat} (h : c.Beside cs e) (hle : e ≤ f)
    (hf : f ≤ c.offset) : c.Beside cs f := by
  refine ⟨hf, ?_⟩
  intro k hk hlt
  exact h.2 k (Nat.le_trans hle hk) hlt

end Comment

namespace DocumentSet

open Comment (Beside CountedBeside LoneBreak)

variable {source : String} {customTags : List String} {set : DocumentSet} {d : Document}

/-- A document comes from a composed one, with a part of the comments. -/
theorem exists_shows_of_parse (h : parse source customTags = .ok set) (hd : d ∈ set.documents) :
    ∃ x comments, x ∈ Composed.ofEvents source.toList.length (eventsOf source) ∧
      Document.ofComposed customTags x comments = .ok d ∧ d.Shows x comments ∧
      comments.Sublist (commentsOf source) := by
  rcases exists_share h hd with ⟨⟨x, comments⟩, hshare, hresolved, hof⟩
  have hshows : d.Shows x comments := Document.shows_ofComposed hresolved hof
  exact ⟨x, comments, (List.of_mem_zip hshare).1, hof, hshows,
    hshows.block_eq ▸ block_sublist_of_parse h hd⟩

theorem hosts_countedBeside (h : parse source customTags = .ok set) (hd : d ∈ set.documents)
    {c : Comment} (hc : c ∈ d.block) (hinline : c.inline = true) {root : Tree}
    (hroot : d.root = some root) {start : Nat} (hstart : root.start? = some start)
    (hle : start ≤ c.offset) : d.Hosts (c.CountedBeside source.toList) c := by
  rcases exists_shows_of_parse h hd with ⟨x, comments, hx, hof, hshows, hsublist⟩
  rcases Document.exists_node_of_root (Composed.resolved_of_mem hx) hof hroot with ⟨n, hn, htree⟩
  rw [hshows.block_eq] at hc
  refine hshows.hosts hn ?_ (Composed.pairwise_ids hx hn)
    ((Comment.pairwise_scan _ _).sublist hsublist)
    (fun y hy => Comment.newline_not_mem_text (hsublist.subset hy)) hc hinline ?_ ?_
  · rcases Composed.exists_root_of_mem hx hn with ⟨own, after, -, hread⟩
    intro i info
    rw [Document.visits_of_root hroot]
    exact Tree.exists_visit_iff (NodeReader.numbered_root hread) (Composed.nodup_ids hx hn) htree
  · rw [Tree.start?, Tree.info?_image htree] at hstart
    cases hstart
    exact hle
  · -- The line of a node counts all breaks, that of a comment the line feeds.
    intro m hm
    have hline := ((Composed.marked_ofChars source.toList x hx).nodes n hn m hm).line_eq
    rw [CountedBeside, Comment.Fits, hline, Comment.line_of_mem_scan (hsublist.subset hc)]
    exact And.comm

/-- When the host of a comment is the node that ends last on its line. -/
theorem hosts_beside_iff (h : parse source customTags = .ok set) (hd : d ∈ set.documents)
    {c : Comment} (hcounted : d.Hosts (c.CountedBeside source.toList) c) :
    d.Hosts (c.Beside source.toList) c ↔
      (∀ v stop, d.EndsLast (c.Beside source.toList) v stop →
        ∀ k < stop, ¬ LoneBreak source.toList k) ∧
      (d.NoneEnds (c.Beside source.toList) → d.NoneEnds (c.CountedBeside source.toList)) := by
  rcases exists_shows_of_parse h hd with ⟨x, comments, -, -, hshows, -⟩
  have hnodup : (d.visits.map Tree.Visit.id).Nodup :=
    List.pairwise_map.2 (d.pairwise_id_visits.imp Nat.ne_of_lt)
  have hids : ∀ v ∈ d.visits, ∀ w ∈ d.visits, v.id = w.id → v = w :=
    fun v hv w hw => List.inj_on_of_nodup_map hnodup hv hw
  rw [Document.hosts_iff hshows.host_unique hids
    (fun e f hbeside _ hle hf => hbeside.of_le hle hf.1) hcounted]
  refine and_congr_left fun _ => forall₂_congr fun v stop => forall_congr' fun hlast => ?_
  exact Comment.countedBeside_iff hlast.holds

/-- A comment behind content goes to the node that ends last among those that are counted to its
line. This is the node that ends last on its line exactly if no lone break stands before the end of
that node, and if no node is counted to the line when none ends on it. No node gets two comments in
this way. -/
theorem hosts_of_parse (h : parse source customTags = .ok set) (hd : d ∈ set.documents)
    {c : Comment} (hc : c ∈ d.block) (hinline : c.inline = true) {root : Tree}
    (hroot : d.root = some root) {start : Nat} (hstart : root.start? = some start)
    (hle : start ≤ c.offset) :
    d.Hosts (c.CountedBeside source.toList) c ∧
      (d.Hosts (c.Beside source.toList) c ↔
        (∀ v stop, d.EndsLast (c.Beside source.toList) v stop →
          ∀ k < stop, ¬ LoneBreak source.toList k) ∧
        (d.NoneEnds (c.Beside source.toList) → d.NoneEnds (c.CountedBeside source.toList))) ∧
      ((∀ k < c.offset, ¬ LoneBreak source.toList k) → d.Hosts (c.Beside source.toList) c) ∧
      ∀ id, (d.attachments.filter fun a => a.1 == .inline id).length ≤ 1 := by
  have hcounted := hosts_countedBeside h hd hc hinline hroot hstart hle
  have hbeside := hosts_beside_iff h hd hcounted
  refine ⟨hcounted, hbeside, ?_, ?_⟩
  · intro hnone
    refine hbeside.2 ⟨?_, ?_⟩
    · intro v stop hlast k hk
      exact hnone k (Nat.lt_of_lt_of_le hk hlast.holds.1)
    · intro hends v hv e he hPe
      have hzero : Comment.loneBreaks source.toList e = 0 :=
        Comment.loneBreaks_eq_zero_iff.2 fun k hk => hnone k (Nat.lt_of_lt_of_le hk hPe.1)
      refine hends v hv e he (Comment.beside_iff.2 ⟨hPe.1, ?_⟩)
      rw [← hPe.2, hzero, Nat.add_zero]
  · intro id
    rcases exists_shows_of_parse h hd with ⟨x, comments, hx, hof, hshows, hsublist⟩
    rcases Document.exists_node_of_root (Composed.resolved_of_mem hx) hof hroot with ⟨n, hn, -⟩
    have hids : ((x.root.elim [] Node.walk).map Node.id).Nodup := by
      rw [hn]
      exact Composed.nodup_ids hx hn
    have hone := hshows.length_hostTexts_inline hids
      ((Comment.pairwise_scan _ _).sublist hsublist) id
    rwa [Document.hostTexts, List.length_map] at hone

/-- A sequence over two lines with a comment behind it, and a scalar with another one. -/
def spreadText : String :=
  "k: [a,\n  b] # x\nc: 1 # y\n"

theorem hosts_of_parse_spreadText :
    ∃ set d c root start, parse spreadText [] = .ok set ∧ d ∈ set.documents ∧ c ∈ d.block ∧
      c.inline = true ∧ d.root = some root ∧ root.start? = some start ∧ start ≤ c.offset ∧
      c.text = " x" ∧ (.inline 3, c) ∈ d.attachments ∧ d.Hosts (c.Beside spreadText.toList) c := by
  have hread : (do
      let documents ← (convert [] (sharesOf spreadText)).toOption
      let d ← documents.head?
      let root ← d.root
      let start ← root.start?
      let a ← d.attachments.head?
      return (a, start)) =
      some ((.inline 3, ⟨12, 1, " x", true⟩), 0) := by
    rw [sharesOf_eq]
    decide +kernel
  simp only [Option.bind_eq_bind, Option.bind_eq_some_iff] at hread
  rcases hread with
    ⟨documents, hconvert, d, hhead, root, hroot, start, hstart, a, ha, hdata⟩
  simp only [Option.pure_def, Option.some.injEq, Prod.mk.injEq] at hdata
  rcases hdata with ⟨rfl, rfl⟩
  rcases exists_parse_of_convert (by decide +kernel) hconvert with ⟨set, hparse, rfl⟩
  have hd := List.mem_of_head? hhead
  have hattached := List.mem_of_head? ha
  have hc : ⟨12, 1, " x", true⟩ ∈ d.block := List.mem_map.2 ⟨_, hattached, rfl⟩
  have hnone : ∀ k < 12, ¬ LoneBreak spreadText.toList k := by decide +kernel
  refine ⟨set, d, _, root, 0, hparse, hd, hc, rfl, hroot, hstart, Nat.zero_le _, rfl,
    hattached, ?_⟩
  exact (hosts_of_parse hparse hd hc rfl hroot hstart (Nat.zero_le _)).2.2.1 hnone

/-- Two pairs with a lone carriage return between them, and a comment behind the second one. -/
def returnText : String :=
  "a: 1\rb: 2 # y\n"

/-- The comment stands behind the second value, and goes to the first one. -/
theorem not_hosts_beside_returnText :
    ∃ set d c root start v, parse returnText [] = .ok set ∧ d ∈ set.documents ∧ c ∈ d.block ∧
      c.inline = true ∧ d.root = some root ∧ root.start? = some start ∧ start ≤ c.offset ∧
      v ∈ d.visits ∧ v.node.stop? = some 9 ∧ c.Beside returnText.toList 9 ∧
      v.id = 6 ∧ (.inline 3, c) ∈ d.attachments ∧ ¬ d.Hosts (c.Beside returnText.toList) c := by
  have hread : (do
      let documents ← (convert [] (sharesOf returnText)).toOption
      let d ← documents.head?
      let root ← d.root
      let start ← root.start?
      let a ← d.attachments.head?
      return (a, start, d.visits.map fun u => (u.id, u.node.stop?))) =
      some ((.inline 3, ⟨10, 0, " y", true⟩), 0,
        [(0, some 14), (1, none), (2, some 1), (3, some 4), (4, none), (5, some 6),
          (6, some 9)]) := by
    rw [sharesOf_eq]
    decide +kernel
  simp only [Option.bind_eq_bind, Option.bind_eq_some_iff] at hread
  rcases hread with
    ⟨documents, hconvert, d, hhead, root, hroot, start, hstart, a, ha, hdata⟩
  simp only [Option.pure_def, Option.some.injEq, Prod.mk.injEq] at hdata
  rcases hdata with ⟨rfl, rfl, hstops⟩
  rcases exists_parse_of_convert (by decide +kernel) hconvert with ⟨set, hparse, rfl⟩
  have hd := List.mem_of_head? hhead
  have hattached := List.mem_of_head? ha
  have hc : ⟨10, 0, " y", true⟩ ∈ d.block := List.mem_map.2 ⟨_, hattached, rfl⟩
  have hsixth : (6, some 9) ∈ d.visits.map fun u => (u.id, u.node.stop?) := by simp [hstops]
  rcases List.mem_map.1 hsixth with ⟨v, hvisit, hv⟩
  rcases Prod.mk.inj hv with ⟨hid, hstop⟩
  have hbeside : Beside returnText.toList ⟨10, 0, " y", true⟩ 9 := by
    rw [Comment.beside_iff]
    decide +kernel
  refine ⟨set, d, _, root, 0, v, hparse, hd, hc, rfl, hroot, hstart, Nat.zero_le _, hvisit,
    hstop, hbeside, hid, hattached, ?_⟩
  rcases exists_shows_of_parse hparse hd with ⟨x, comments, -, -, hshows, -⟩
  intro hhosts
  cases hhosts with
  | node w e hlast hhost htext =>
      -- The only host is the first value, which ends further up.
      have hw := hshows.host_unique _ _ hhost hattached
      simp only [Comment.Host.inline.injEq] at hw
      have hmem : (w.id, w.node.stop?) ∈ d.visits.map fun u => (u.id, u.node.stop?) :=
        List.mem_map.2 ⟨w, hlast.listed, rfl⟩
      rw [hstops, hw, hlast.stops] at hmem
      have he : e = 4 := by simpa using hmem
      have hbehind := hlast.last v hvisit 9 hstop hbeside
      omega
  | trailing hnone hhost htext => cases hshows.host_unique _ _ hhost hattached

end DocumentSet
end YamlServer
