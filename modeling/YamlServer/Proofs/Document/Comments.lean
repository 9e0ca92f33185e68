import YamlServer.Proofs.Comment.Host
import YamlServer.Proofs.Document.Layout
import YamlServer.Proofs.Document.Reading
import YamlServer.Proofs.Tree.Correspondence
import YamlServer.Proofs.Yaml.NodeNumber

/-!
# The comments of documents

Every comment of a text shows in one of its documents, and in one place there: in front of the root,
after the content, or at a node. A document lists its comments with a `#` in front, one entry for
each, except that the comments after its content make up a single entry.

* `Document.block`: the comments that fall to a document.
* `DocumentSet.lineComments_of_parse`: what the lists of all documents hold.
-/

namespace YamlServer

open Yaml
open scoped List

namespace Document

def attachments (d : Document) : List (Comment.Host × Comment) :=
  (d.source.map (·.attached.comments)).getD []

def block (d : Document) : List Comment :=
  d.attachments.map (·.2)

def infos (d : Document) : List Info :=
  d.visits.filterMap (·.node.info?)

/-- The lines of the texts of comments that a document shows: in front of its root, after its
content, and at each of its nodes. -/
def commentLines (d : Document) : List String :=
  Attached.blockLines d.commentBefore ++ Attached.blockLines d.comment ++
    d.infos.flatMap fun info =>
      Attached.blockLines info.commentBefore ++ Attached.blockLines info.comment

def hostTexts (d : Document) (host : Comment.Host) : List String :=
  (d.attachments.filter fun x => x.1 == host).map fun x => x.2.text

def hashed (c : Comment.Host × Comment) : String :=
  "#" ++ c.2.text

/-! ## Listing lines -/

theorem splitLines_eq (cs : List Char) : splitLines cs = cs.splitOn '\n' := by
  induction cs with
  | nil => rfl
  | cons c rest ih =>
    rcases hlines : rest.splitOn '\n' with _ | ⟨line, lines⟩
    · exact absurd hlines (List.splitOn_ne_nil _ _)
    · rw [splitLines, ih, hlines, List.splitOn_cons_eq_if_modifyHead, hlines]
      rfl

theorem hashLines_eq (text : Option String) :
    hashLines text = (Attached.blockLines text).map ("#" ++ ·) := by
  cases text with
  | none => rfl
  | some text =>
    simp [hashLines, Attached.blockLines, splitLines_eq, Function.comp_def, String.ofList_cons]

theorem hashEntry_joinLines {lines : List String} (h : lines.length ≤ 1) :
    hashEntry (Attached.joinLines lines) = lines.map ("#" ++ ·) := by
  rcases lines with _ | ⟨line, _ | ⟨next, rest⟩⟩
  · rfl
  · rfl
  · simp at h

/-- Several lines make up an entry that is no line. -/
theorem newline_mem_hashEntry {lines : List String} (h : 1 < lines.length) :
    ∃ entry ∈ hashEntry (Attached.joinLines lines), '\n' ∈ entry.toList := by
  rcases lines with _ | ⟨line, _ | ⟨next, rest⟩⟩
  · simp at h
  · simp at h
  · rw [Attached.joinLines_cons, String.intercalate_cons_cons]
    refine ⟨_, List.mem_cons_self, ?_⟩
    simp

/-! ## What a document shows -/

/-- A document that shows the comments of a composed one. -/
structure Shows (d : Document) (c : Composed) (comments : List Comment) : Prop where
  source : d.source = some ⟨c, Attached.ofComments c.root comments⟩
  infos : d.infos =
    (c.root.elim [] Node.walk).map (Tree.infoOf (Attached.ofComments c.root comments))

theorem shows_ofComposed {customTags : List String} {c : Composed} {comments : List Comment}
    {d : Document} (hc : c.Resolved) (h : ofComposed customTags c comments = .ok d) :
    d.Shows c comments := by
  rcases root_ofComposed hc h with ⟨hsource, hroots⟩
  refine ⟨hsource, ?_⟩
  rcases hroots with ⟨hnone, hroot⟩ | ⟨n, root, hn, htree, hroot⟩
  · rw [infos, visits, hroot, hnone]
    rfl
  · have hinfos := Tree.infos_image _ n root htree
    rw [infos, visits, hroot, hn]
    rw [hn] at hinfos
    rwa [Tree.infos, Tree.walk, List.filterMap_map] at hinfos

/-- The list of a document, by what its nodes hold. -/
theorem lineComments_eq {d : Document} (h : d.source.isSome) :
    d.lineComments = hashLines d.commentBefore ++
      (d.infos.flatMap fun info => hashLines info.commentBefore ++ hashEntry info.comment) ++
      hashEntry d.comment := by
  rcases Option.isSome_iff_exists.1 h with ⟨source, hsource⟩
  rw [lineComments, hsource, infos]
  dsimp only
  congr 2
  induction d.visits with
  | nil => rfl
  | cons v rest ih =>
    rw [List.flatMap_cons, ih]
    cases hinfo : v.node.info? with
    | none => simp [hinfo]
    | some info => simp [hinfo]

namespace Shows

variable {d : Document} {c : Composed} {comments : List Comment}

theorem attachments_eq (h : d.Shows c comments) :
    d.attachments = comments.map fun x => (Comment.hostOf c.root x, x) := by
  rw [attachments, h.source]
  rfl

theorem block_eq (h : d.Shows c comments) : d.block = comments := by
  simp [block, h.attachments_eq, Function.comp_def]

theorem stop_eq (h : d.Shows c comments) : d.stop = c.stop := by
  rw [stop, h.source]
  rfl

theorem text?_eq (h : d.Shows c comments) (host : Comment.Host) :
    (Attached.ofComments c.root comments).text? host = Attached.joinLines (hostTexts d host) := by
  rw [hostTexts, h.attachments_eq]
  rfl

theorem blockLines_text? (h : d.Shows c comments) (hlines : ∀ x ∈ comments, '\n' ∉ x.text.toList)
    (host : Comment.Host) :
    Attached.blockLines ((Attached.ofComments c.root comments).text? host) = hostTexts d host := by
  rw [h.text?_eq, Attached.blockLines_joinLines]
  simp only [hostTexts, h.attachments_eq, List.mem_map, List.mem_filter]
  rintro line ⟨x, ⟨⟨y, hy, rfl⟩, -⟩, rfl⟩
  exact hlines y hy

/-- A document shows its comments host by host. -/
theorem commentLines_eq (h : d.Shows c comments)
    (hlines : ∀ x ∈ comments, '\n' ∉ x.text.toList) :
    d.commentLines = (Comment.hosts (c.root.elim [] Node.walk)).flatMap (hostTexts d) := by
  have hbefore : Attached.blockLines d.commentBefore = hostTexts d .leading := by
    rw [commentBefore, h.source]
    exact h.blockLines_text? hlines .leading
  have hafter : Attached.blockLines d.comment = hostTexts d .trailing := by
    rw [comment, h.source]
    exact h.blockLines_text? hlines .trailing
  simp [commentLines, hbefore, hafter, h.infos, Comment.hosts, Comment.nodeHosts, Tree.infoOf,
    h.blockLines_text? hlines, List.flatMap_map, List.flatMap_assoc]

theorem mem_hosts (h : d.Shows c comments) {x : Comment.Host × Comment} (hx : x ∈ d.attachments) :
    x.1 ∈ Comment.hosts (c.root.elim [] Node.walk) := by
  rw [h.attachments_eq] at hx
  rcases List.mem_map.1 hx with ⟨y, -, rfl⟩
  exact Comment.hostOf_mem_hosts c.root y

/-- The lines that a document shows are its comments. -/
theorem commentLines_perm (h : d.Shows c comments)
    (hids : ((c.root.elim [] Node.walk).map Node.id).Nodup)
    (hlines : ∀ x ∈ comments, '\n' ∉ x.text.toList) :
    d.commentLines ~ d.block.map (·.text) := by
  have hall : (d.attachments.filter fun x =>
      (Comment.hosts (c.root.elim [] Node.walk)).contains x.1) = d.attachments := by
    refine List.filter_eq_self.2 ?_
    intro x hx
    simpa using h.mem_hosts hx
  calc
    d.commentLines
        = (Comment.hosts (c.root.elim [] Node.walk)).flatMap d.hostTexts := h.commentLines_eq hlines
    _ = ((Comment.hosts (c.root.elim [] Node.walk)).flatMap fun host =>
          d.attachments.filter fun x => x.1 == host).map fun x => x.2.text := by
        rw [List.map_flatMap]
        rfl
    _ ~ d.attachments.map fun x => x.2.text := by
        have hperm := Comment.perm_flatMap_filter Prod.fst (Comment.nodup_hosts hids)
          d.attachments
        rw [hall] at hperm
        exact hperm.map _
    _ = d.block.map (·.text) := by
        rw [block, List.map_map]
        rfl

theorem length_hostTexts_inline (h : d.Shows c comments)
    (hids : ((c.root.elim [] Node.walk).map Node.id).Nodup)
    (hordered : comments.Pairwise Comment.Precedes) (id : Nat) :
    (d.hostTexts (.inline id)).length ≤ 1 := by
  have hone := Comment.length_inline_le_one hids hordered id
  simpa [hostTexts, h.attachments_eq, List.filter_map, Function.comp_def] using hone

theorem hashEntry_inline (h : d.Shows c comments)
    (hids : ((c.root.elim [] Node.walk).map Node.id).Nodup)
    (hordered : comments.Pairwise Comment.Precedes) (id : Nat) :
    hashEntry ((Attached.ofComments c.root comments).text? (.inline id)) =
      (d.hostTexts (.inline id)).map ("#" ++ ·) := by
  rw [h.text?_eq]
  exact hashEntry_joinLines (h.length_hostTexts_inline hids hordered id)

theorem lineComments_eq (h : d.Shows c comments)
    (hids : ((c.root.elim [] Node.walk).map Node.id).Nodup)
    (hordered : comments.Pairwise Comment.Precedes)
    (hlines : ∀ x ∈ comments, '\n' ∉ x.text.toList) :
    d.lineComments =
      ((Comment.Host.leading :: Comment.nodeHosts (c.root.elim [] Node.walk)).flatMap fun host =>
        (d.hostTexts host).map ("#" ++ ·)) ++
      hashEntry (Attached.joinLines (d.hostTexts .trailing)) := by
  have hbefore : hashLines d.commentBefore = (d.hostTexts .leading).map ("#" ++ ·) := by
    rw [hashLines_eq, commentBefore, h.source]
    exact congrArg _ (h.blockLines_text? hlines .leading)
  have hafter : d.comment = Attached.joinLines (d.hostTexts .trailing) := by
    rw [comment, h.source]
    exact h.text?_eq .trailing
  rw [Document.lineComments_eq (by simp [h.source]), hbefore, hafter]
  simp [h.infos, Comment.nodeHosts, Tree.infoOf, hashLines_eq, h.blockLines_text? hlines,
    h.hashEntry_inline hids hordered, List.flatMap_map, List.flatMap_assoc]

/-- The list of a document has an entry for each comment, except that those after the content share
one. -/
theorem lineComments_perm (h : d.Shows c comments)
    (hids : ((c.root.elim [] Node.walk).map Node.id).Nodup)
    (hordered : comments.Pairwise Comment.Precedes)
    (hlines : ∀ x ∈ comments, '\n' ∉ x.text.toList) :
    d.lineComments ~ (d.attachments.filter fun x => x.1 != .trailing).map hashed ++
      hashEntry (Attached.joinLines (d.hostTexts .trailing)) := by
  have hnodup : (Comment.Host.trailing ::
      Comment.Host.leading :: Comment.nodeHosts (c.root.elim [] Node.walk)).Nodup :=
    (List.Perm.swap _ _ _).nodup (Comment.nodup_hosts hids)
  rcases List.nodup_cons.1 hnodup with ⟨hfresh, hkeys⟩
  -- A comment that does not trail has one of the other hosts.
  have hothers : (d.attachments.filter fun x =>
      (Comment.Host.leading :: Comment.nodeHosts (c.root.elim [] Node.walk)).contains x.1) =
        d.attachments.filter fun x => x.1 != .trailing := by
    refine List.filter_congr ?_
    intro x hx
    have hhost := h.mem_hosts hx
    by_cases htrailing : x.1 = .trailing
    · simpa [htrailing] using hfresh
    · have hother : (x.1 != .trailing) = true := bne_iff_ne.2 htrailing
      simpa [Comment.hosts, htrailing, hother] using hhost
  rw [h.lineComments_eq hids hordered hlines]
  refine List.Perm.append_right _ ?_
  calc
    ((Comment.Host.leading :: Comment.nodeHosts (c.root.elim [] Node.walk)).flatMap fun host =>
        (d.hostTexts host).map ("#" ++ ·))
        = ((Comment.Host.leading :: Comment.nodeHosts (c.root.elim [] Node.walk)).flatMap
            fun host => d.attachments.filter fun x => x.1 == host).map hashed := by
        rw [List.map_flatMap]
        refine List.flatMap_congr ?_
        intro host _
        rw [hostTexts, List.map_map]
        rfl
    _ ~ (d.attachments.filter fun x => x.1 != .trailing).map hashed := by
        have hperm := Comment.perm_flatMap_filter Prod.fst hkeys d.attachments
        rw [hothers] at hperm
        exact hperm.map _

end Shows

end Document

/-! ## Texts -/

namespace DocumentSet

variable {source : String} {customTags : List String} {set : DocumentSet}

/-- The comments are distributed by the ends of the documents. -/
theorem map_block_of_parse (h : parse source customTags = .ok set) :
    set.documents.map Document.block =
      Comment.distribute (set.documents.map Document.stop) (commentsOf source) := by
  have hblocks : set.documents.map Document.block = (sharesOf source).map (·.2) :=
    map_of_parse (fun hc hof => (Document.shows_ofComposed hc hof).block_eq) h
  have hstops : set.documents.map Document.stop =
      (Composed.ofEvents source.toList.length (eventsOf source)).map (·.stop) := by
    rw [← map_fst_sharesOf, List.map_map]
    exact map_of_parse (fun hc hof => (Document.shows_ofComposed hc hof).stop_eq) h
  rw [hblocks, hstops]
  refine List.map_snd_zip (Nat.le_of_eq ?_)
  rw [length_distribute, List.length_map]

/-- The blocks of the documents are the comments of the text. -/
theorem flatMap_block_of_parse (h : parse source customTags = .ok set) (hne : set.documents ≠ []) :
    set.documents.flatMap Document.block = commentsOf source := by
  rw [List.flatMap_def, map_block_of_parse h]
  exact Comment.flatten_distribute (Comment.pairwise_scan _ _) (by simpa using hne)

/-- The block of a document is a part of the comments of the text. -/
theorem block_sublist_of_parse (h : parse source customTags = .ok set) {d : Document}
    (hd : d ∈ set.documents) : d.block <+ commentsOf source := by
  rw [← flatMap_block_of_parse h (List.ne_nil_of_mem hd)]
  exact List.sublist_flatten_of_mem (List.mem_map_of_mem hd)

/-- What every document of a text shows and lists. -/
theorem shown_of_parse (h : parse source customTags = .ok set) {d : Document}
    (hd : d ∈ set.documents) :
    d.commentLines ~ d.block.map (·.text) ∧
      d.lineComments ~ (d.attachments.filter fun x => x.1 != .trailing).map Document.hashed ++
        Document.hashEntry (Attached.joinLines (d.hostTexts .trailing)) := by
  rcases exists_share h hd with ⟨⟨c, comments⟩, hshare, hresolved, hof⟩
  have hshows : d.Shows c comments := Document.shows_ofComposed hresolved hof
  have hids : ((c.root.elim [] Node.walk).map Node.id).Nodup := by
    cases hroot : c.root with
    | none => exact List.nodup_nil
    | some n => exact Composed.nodup_ids (List.of_mem_zip hshare).1 hroot
  have hsublist : comments <+ commentsOf source := hshows.block_eq ▸ block_sublist_of_parse h hd
  have hordered : comments.Pairwise Comment.Precedes :=
    (Comment.pairwise_scan _ _).sublist hsublist
  have hlines : ∀ x ∈ comments, '\n' ∉ x.text.toList := by
    intro x hx
    exact Comment.newline_not_mem_text (hsublist.subset hx)
  exact ⟨hshows.commentLines_perm hids hlines, hshows.lineComments_perm hids hordered hlines⟩

/-- No comment is lost, shown twice or given to two documents. The documents split the comments into
consecutive blocks: each one takes, of those not taken before, the comments in front of its end, and
the last one takes all that are left. -/
theorem commentLines_of_parse {source : String} {customTags : List String} {set : DocumentSet}
    (h : parse source customTags = .ok set) (hne : set.documents ≠ []) :
    set.documents.flatMap Document.commentLines ~ (commentsOf source).map (·.text) ∧
      set.documents.flatMap Document.block = commentsOf source ∧
      ∀ i d, set.documents[i]? = some d →
        d.commentLines ~ d.block.map (·.text) ∧
        d.block =
          let left := (commentsOf source).drop
            ((set.documents.take i).flatMap Document.block).length
          if i + 1 = set.documents.length then left else left.filter (·.offset < d.stop) := by
  have hblocks := flatMap_block_of_parse h hne
  refine ⟨?_, hblocks, ?_⟩
  · calc
      set.documents.flatMap Document.commentLines
          ~ set.documents.flatMap fun d => d.block.map (·.text) :=
            List.Perm.flatMap_left _ fun d hd => (shown_of_parse h hd).1
      _ = (commentsOf source).map (·.text) := by rw [← hblocks, List.map_flatMap]
  · intro i d hd
    refine ⟨(shown_of_parse h (List.mem_of_getElem? hd)).1, ?_⟩
    have hstop : (set.documents.map Document.stop)[i]? = some d.stop := by simp [hd]
    have hblock := @Comment.getElem?_distribute _ (commentsOf source) _ _ hstop
    rw [← map_block_of_parse h] at hblock
    simpa [hd, List.flatMap_def, List.map_take] using hblock

/-- The shares of a text as they are found, without sorting. -/
theorem sharesOf_eq (source : String) :
    sharesOf source =
      let stream := TokenStream.ofChars source.toList
      let composed := Composed.ofEvents source.toList.length (EventStream.ofTokens stream)
      composed.zip (Comment.distribute (composed.map (·.stop))
        (Comment.scanFrom (stream.tokens.filterMap Comment.textSpan?) 0 0 none false false
          source.toList)) := by
  rw [sharesOf, commentsOf, Comment.scan, TokenStream.ofText, Comment.textSpans_ofChars]
  rfl

/-- Comments in front of the root, on a line, in front of a key and after the content, in two
documents. -/
def commentedText : String :=
  "# a\nk: 1 # b\n# c\nl: 2\n# d\n# e\n--- # f\nm\n#\n"

/-- A text is read if one of its documents is asked for. -/
theorem exists_parse_of_document {source : String}
    (h : (parse source []).toOption.any (!·.documents.isEmpty) = true) :
    ∃ set, parse source [] = .ok set ∧ set.documents ≠ [] := by
  cases hparse : parse source [] with
  | error failure =>
    rw [hparse] at h
    cases h
  | ok set =>
    rw [hparse] at h
    have hsome : (!set.documents.isEmpty) = true := h
    exact ⟨set, rfl, by simpa using hsome⟩

/-- A text that is read has the documents that its shares convert to. -/
theorem exists_parse_of_convert {source : String} {documents : List Document}
    (h : (parse source []).toOption.any (!·.documents.isEmpty) = true)
    (hconvert : (convert [] (sharesOf source)).toOption = some documents) :
    ∃ set, parse source [] = .ok set ∧ set.documents = documents := by
  rcases exists_parse_of_document h with ⟨set, hparse, -⟩
  have hsame := (convert_of_parse hparse).symm.trans (Outcome.toOption_eq_some.1 hconvert)
  exact ⟨set, hparse, Except.ok.inj hsame⟩

theorem commentLines_of_parse_commentedText :
    ∃ set, parse commentedText [] = .ok set ∧ set.documents ≠ [] ∧
      (set.documents.flatMap Document.commentLines).length = 7 := by
  have hread : (parse commentedText []).toOption.any (!·.documents.isEmpty) = true := by
    decide +kernel
  have hseven : (commentsOf commentedText).length = 7 := by
    rw [commentsOf, Comment.scan, TokenStream.ofText, Comment.textSpans_ofChars]
    decide +kernel
  rcases exists_parse_of_document hread with ⟨set, hparse, hne⟩
  refine ⟨set, hparse, hne, ?_⟩
  rw [(commentLines_of_parse hparse hne).1.length_eq, List.length_map, hseven]

/-! ## Lists -/

/-- A list without a joined entry is the list of all comments of a document. -/
theorem lineComments_perm_of_single (h : parse source customTags = .ok set) {d : Document}
    (hd : d ∈ set.documents) (hsingle : (d.hostTexts .trailing).length ≤ 1) :
    d.lineComments ~ d.block.map fun c => "#" ++ c.text := by
  have htrailing : (d.hostTexts .trailing).map ("#" ++ ·) =
      (d.attachments.filter fun x => !(x.1 != .trailing)).map Document.hashed := by
    rw [Document.hostTexts, List.map_map]
    simp only [bne, Bool.not_not]
    rfl
  calc
    d.lineComments
        ~ (d.attachments.filter fun x => x.1 != .trailing).map Document.hashed ++
            Document.hashEntry (Attached.joinLines (d.hostTexts .trailing)) :=
          (shown_of_parse h hd).2
    _ = ((d.attachments.filter fun x => x.1 != .trailing) ++
          d.attachments.filter fun x => !(x.1 != .trailing)).map Document.hashed := by
          rw [Document.hashEntry_joinLines hsingle, htrailing, List.map_append]
    _ ~ d.attachments.map Document.hashed := (List.filter_append_perm _ _).map _
    _ = d.block.map fun c => "#" ++ c.text := by
          rw [Document.block, List.map_map]
          rfl

/-- The lists of all documents hold an entry for each comment that does not trail its document, and
one entry for all that do. So they hold one entry for each comment if and only if no document has
several comments after its content. -/
theorem lineComments_of_parse {source : String} {customTags : List String} {set : DocumentSet}
    (h : parse source customTags = .ok set) (hne : set.documents ≠ []) :
    set.documents.flatMap Document.block = commentsOf source ∧
      (∀ d ∈ set.documents,
        d.lineComments ~ (d.attachments.filter fun x => x.1 != .trailing).map Document.hashed ++
          Document.hashEntry (Attached.joinLines (d.hostTexts .trailing))) ∧
      (set.documents.flatMap Document.lineComments ~
          (commentsOf source).map (fun c => "#" ++ c.text) ↔
        ∀ d ∈ set.documents, (d.hostTexts .trailing).length ≤ 1) := by
  have hblocks := flatMap_block_of_parse h hne
  refine ⟨hblocks, fun d hd => (shown_of_parse h hd).2, ?_, ?_⟩
  · intro hperm d hd
    refine Nat.le_of_not_lt fun hseveral => ?_
    -- The joined entry holds a line break, and no comment does.
    rcases Document.newline_mem_hashEntry hseveral with ⟨entry, hentry, hnewline⟩
    have hlisted : entry ∈ set.documents.flatMap Document.lineComments := by
      refine List.mem_flatMap.2 ⟨d, hd, (shown_of_parse h hd).2.mem_iff.2 ?_⟩
      exact List.mem_append_right _ hentry
    rcases List.mem_map.1 (hperm.mem_iff.1 hlisted) with ⟨c, hc, rfl⟩
    have hline := Comment.newline_not_mem_text hc
    simp [hline] at hnewline
  · intro hsingle
    calc
      set.documents.flatMap Document.lineComments
          ~ set.documents.flatMap fun d => d.block.map fun c => "#" ++ c.text :=
            List.Perm.flatMap_left _ fun d hd => lineComments_perm_of_single h hd (hsingle d hd)
      _ = (commentsOf source).map fun c => "#" ++ c.text := by rw [← hblocks, List.map_flatMap]

def listedText : String :=
  "a: 1 # x\n# y\n"

theorem lineComments_of_parse_listedText :
    ∃ set, parse listedText [] = .ok set ∧ set.documents ≠ [] ∧
      set.documents.flatMap Document.lineComments ~
        (commentsOf listedText).map fun c => "#" ++ c.text := by
  have hread : (parse listedText []).toOption.any (!·.documents.isEmpty) = true := by
    decide +kernel
  have hsingle : (convert [] (sharesOf listedText)).toOption.all
      (·.all fun d => (d.hostTexts .trailing).length ≤ 1) = true := by
    rw [sharesOf_eq]
    decide +kernel
  rcases exists_parse_of_document hread with ⟨set, hparse, hne⟩
  rw [convert_of_parse hparse] at hsingle
  have hall : (set.documents.all fun d => (d.hostTexts .trailing).length ≤ 1) = true := hsingle
  exact ⟨set, hparse, hne, (lineComments_of_parse hparse hne).2.2.2 (by simpa using hall)⟩

def trailedText : String :=
  "a: 1\n# x\n# y\n"

/-- Two comments after the content are listed as one entry. -/
theorem lineComments_trailedText :
    ∃ set, parse trailedText [] = .ok set ∧ set.documents ≠ [] ∧
      ¬ set.documents.flatMap Document.lineComments ~
        (commentsOf trailedText).map fun c => "#" ++ c.text := by
  have hread : (parse trailedText []).toOption.any (!·.documents.isEmpty) = true := by
    decide +kernel
  rcases exists_parse_of_document hread with ⟨set, hparse, hne⟩
  have hone : (convert [] (sharesOf trailedText)).toOption.map
      (fun ds => (ds.flatMap Document.lineComments).length) = some 1 := by
    rw [sharesOf_eq]
    decide +kernel
  have htwo : (commentsOf trailedText).length = 2 := by
    rw [commentsOf, Comment.scan, TokenStream.ofText, Comment.textSpans_ofChars]
    decide +kernel
  refine ⟨set, hparse, hne, ?_⟩
  intro hperm
  rw [convert_of_parse hparse] at hone
  have hlisted : (set.documents.flatMap Document.lineComments).length = 1 := Option.some.inj hone
  have hlength := hperm.length_eq
  rw [hlisted, List.length_map, htwo] at hlength
  cases hlength

end DocumentSet
end YamlServer
