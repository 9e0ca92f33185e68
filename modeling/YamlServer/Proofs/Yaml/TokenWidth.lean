import Mathlib.Data.List.Chain
import YamlServer.Proofs.Yaml.AsideStep

/-!
# Which tokens have width

Tokens that stand for something written are not empty. Those that stand for indentation are, and so
is the key token that a colon puts in front of an earlier token. Such a key does not stand alone:
the token it was put in front of comes right after it, and was written.

* `TokenKind.isVirtual`: tokens that may be empty.
* `Lexer.Keyed`: what holds between two tokens, of those that left the queue and those still in it.
* `TokenStream.written_ofChars`: the tokens of a text are written.
-/

namespace YamlServer
namespace Yaml

open Cursor

def TokenKind.isVirtual : TokenKind → Bool
  | .streamStart | .streamEnd | .blockSequenceStart | .blockMappingStart | .blockEnd | .key => true
  | _ => false

theorem TokenKind.isVirtual_of_isPart {k : TokenKind} (h : k.isPart = true) :
    k.isVirtual = false := by
  cases k <;> first | rfl | cases h

def Token.Wide (t : Token) : Prop :=
  t.start.index < t.stop.index

/-- What is read where a character is left has width. -/
theorem Reads.wide {c c' : Cursor} {t : Token} (h : Reads c t c') (hrest : c.rest ≠ []) :
    t.Wide := by
  obtain ⟨d, hd, -, hmark⟩ := h.beyond
  rw [Token.Wide, h.start, ← hmark]
  exact hd.index_lt hrest

/-- What stands right after an empty key is a part of a node. -/
def Token.Leads (t u : Token) : Prop :=
  t.kind = .key → t.Wide ∨ u.kind.isPart = true

/-- Tokens have width unless they are virtual, and empty keys stand before a part of a node. -/
structure Written (tokens : List Token) : Prop where
  wide : ∀ t ∈ tokens, t.kind.isVirtual = false → t.Wide
  chain : tokens.IsChain Token.Leads

theorem Written.tail {t : Token} {tokens : List Token} (h : Written (t :: tokens)) :
    Written tokens :=
  ⟨fun u hu => h.wide u (List.mem_cons_of_mem _ hu), h.chain.tail⟩

/-- A first token of a kind that is not virtual has width. -/
theorem Written.wide_head {t : Token} {tokens : List Token} {k : TokenKind}
    (h : Written (t :: tokens)) (hkind : t.kind = k) (hk : k.isVirtual = false) : t.Wide :=
  h.wide t List.mem_cons_self (hkind ▸ hk)

theorem Written.suffix {tokens rest : List Token} (h : Written tokens) (hrest : rest <:+ tokens) :
    Written rest :=
  ⟨fun u hu => h.wide u (hrest.subset hu), h.chain.suffix hrest⟩

namespace Lexer

/-- At this position stands a part of a node, and no empty key before it. -/
structure StartsAt (tokens : List Token) (n : Nat) : Prop where
  part : ∃ t, tokens[n]? = some t ∧ t.kind.isPart = true
  free : ∀ t ∈ (tokens.take n).getLast?, t.kind = .key → t.Wide

/-- What holds of the state between two tokens, `out` being those that left the queue. -/
structure Keyed (out : List Token) (s : Lexer) : Prop extends Written (out ++ s.queue) where
  taken : s.taken = out.length
  /-- An empty key is never the last token. -/
  last : ∀ t ∈ (out ++ s.queue).getLast?, t.kind = .key → t.Wide
  keys : ∀ k ∈ s.keys, StartsAt (out ++ s.queue) k.2.number
  /-- Possible keys of different levels are different tokens. -/
  apart : ∀ k ∈ s.keys, ∀ k' ∈ s.keys, k.1 < k'.1 → k.2.number < k'.2.number

namespace StartsAt

variable {tokens : List Token} {n : Nat}

theorem lt_length (h : StartsAt tokens n) : n < tokens.length := by
  obtain ⟨t, ht, -⟩ := h.part
  exact (List.getElem?_eq_some_iff.1 ht).1

/-- It depends on the tokens up to the position only. -/
theorem congr {tokens' : List Token} (h : StartsAt tokens n)
    (heq : tokens'.take (n + 1) = tokens.take (n + 1)) : StartsAt tokens' n := by
  obtain ⟨t, ht, hpart⟩ := h.part
  refine ⟨⟨t, ?_, hpart⟩, ?_⟩
  · rw [← List.getElem?_take_of_lt (Nat.lt_succ_self n), heq,
      List.getElem?_take_of_lt (Nat.lt_succ_self n), ht]
  · have hbefore : tokens'.take n = tokens.take n := by
      have htake := congrArg (List.take n) heq
      rwa [List.take_take, List.take_take, Nat.min_eq_left (Nat.le_succ n)] at htake
    rw [hbefore]
    exact h.free

end StartsAt

namespace Keyed

variable {out : List Token} {s s' : Lexer}

/-- Forgetting keys and moving on keep the state. -/
theorem forget (h : Keyed out s) (hqueue : s'.queue = s.queue) (htaken : s'.taken = s.taken)
    (hkeys : ∀ k ∈ s'.keys, k ∈ s.keys) : Keyed out s' := by
  refine ⟨?_, htaken.trans h.taken, ?_, ?_, ?_⟩
  · rw [hqueue]
    exact h.toWritten
  · rw [hqueue]
    exact h.last
  · rw [hqueue]
    exact fun k hk => h.keys k (hkeys k hk)
  · exact fun k hk k' hk' => h.apart k (hkeys k hk) k' (hkeys k' hk')

theorem push (h : Keyed out s) {t : Token} (hqueue : s'.queue = s.queue ++ [t])
    (htaken : s'.taken = s.taken) (hkeys : ∀ k ∈ s'.keys, k ∈ s.keys)
    (hwide : t.kind.isVirtual = false ∨ t.kind = .key → t.Wide) : Keyed out s' := by
  have hall : out ++ s'.queue = out ++ s.queue ++ [t] := by rw [hqueue, List.append_assoc]
  have hgrown : ∀ n, StartsAt (out ++ s.queue) n → StartsAt (out ++ s.queue ++ [t]) n := by
    intro n hn
    exact hn.congr (List.take_append_of_le_length hn.lt_length)
  refine ⟨⟨?_, ?_⟩, htaken.trans h.taken, ?_, ?_, ?_⟩
  · rw [hall]
    intro u hu hkind
    rcases List.mem_append.1 hu with hu | hu
    · exact h.wide u hu hkind
    · rcases List.mem_singleton.1 hu with rfl
      exact hwide (Or.inl hkind)
  · rw [hall]
    refine List.isChain_append.2 ⟨h.chain, List.isChain_singleton t, ?_⟩
    intro u hu _ _ hkey
    exact Or.inl (h.last u hu hkey)
  · rw [hall, List.getLast?_concat]
    intro u hu hkey
    cases hu
    exact hwide (Or.inr hkey)
  · rw [hall]
    exact fun k hk => hgrown _ (h.keys k (hkeys k hk))
  · exact fun k hk k' hk' => h.apart k (hkeys k hk) k' (hkeys k' hk')

theorem mem_of_dropKey (h : s.dropKey = .ok s') : ∀ k ∈ s'.keys, k ∈ s.keys := by
  unfold Lexer.dropKey at h
  split at h
  · split at h
    · cases h
    · cases h
      exact fun k hk => (List.mem_filter.1 hk).1
  · cases h
    exact fun k hk => hk

theorem dropKey (h : Keyed out s) (hdrop : s.dropKey = .ok s') : Keyed out s' := by
  have hkept := dropKey_eq hdrop
  exact h.forget (by rw [hkept]) (by rw [hkept]) (mem_of_dropKey hdrop)

theorem dropStale (h : Keyed out s) (hdrop : s.dropStale = .ok s') : Keyed out s' := by
  rw [dropStale_eq hdrop]
  exact h.forget rfl rfl fun k hk => (List.mem_filter.1 hk).1

/-- Noting a key and queueing the token that it numbers, which is a part of a node. -/
theorem note (h : Keyed out s) (hlevels : ∀ k ∈ s.keys, k.1 ≤ s.flow) {saved : Lexer}
    (hsave : s.saveKey = .ok saved) {t : Token} (hqueue : s'.queue = saved.queue ++ [t])
    (htaken : s'.taken = saved.taken) (hkeys : s'.keys = saved.keys) (hpart : t.kind.isPart = true)
    (hwide : t.Wide) : Keyed out s' := by
  unfold Lexer.saveKey at hsave
  split at hsave
  · rcases Outcome.bind_eq_ok.1 hsave with ⟨dropped, hdrop, hrest⟩
    have hkeyed := h.dropKey hdrop
    have hflow : dropped.flow = s.flow := by rw [dropKey_eq hdrop]
    have hold : ∀ k ∈ dropped.keys, k.1 ≤ dropped.flow := by
      intro k hk
      rw [hflow]
      exact hlevels k (mem_of_dropKey hdrop k hk)
    cases hrest
    -- The token is queued as any other; the new key numbers it.
    have hpushed : Keyed out { s' with keys := dropped.keys } :=
      hkeyed.push hqueue htaken (fun k hk => hk) fun _ => hwide
    have hnumber : dropped.taken + dropped.queue.length = (out ++ dropped.queue).length := by
      rw [hkeyed.taken, List.length_append]
    have hall : out ++ s'.queue = out ++ dropped.queue ++ [t] := by
      rw [hqueue, List.append_assoc]
    have hnew : StartsAt (out ++ s'.queue) (dropped.taken + dropped.queue.length) := by
      rw [hall, hnumber]
      refine ⟨⟨t, List.getElem?_concat_length, hpart⟩, ?_⟩
      rw [List.take_left]
      exact hkeyed.last
    refine ⟨hpushed.toWritten, hpushed.taken, hpushed.last, ?_, ?_⟩
    · rw [hkeys]
      intro k hk
      rcases List.mem_append.1 hk with hk | hk
      · exact hpushed.keys k hk
      · rcases List.mem_singleton.1 hk with rfl
        exact hnew
    · rw [hkeys]
      intro k hk k' hk' hlevel
      rcases List.mem_append.1 hk with hk | hk
      · rcases List.mem_append.1 hk' with hk' | hk'
        · exact hkeyed.apart k hk k' hk' hlevel
        · rcases List.mem_singleton.1 hk' with rfl
          have hlt := (hkeyed.keys k hk).lt_length
          rwa [← hnumber] at hlt
      · -- No key has a level above the current one.
        rcases List.mem_singleton.1 hk with rfl
        rcases List.mem_append.1 hk' with hk' | hk'
        · exact absurd hlevel (Int.not_lt.2 (hold k' hk'))
        · rcases List.mem_singleton.1 hk' with rfl
          exact absurd hlevel (Int.lt_irrefl _)
  · cases hsave
    exact h.push hqueue htaken (fun k hk => hkeys ▸ hk) fun _ => hwide

/-- Putting tokens of no width, the last of them a key, in front of a possible key, once only keys
of outer levels are left. -/
theorem insertBefore (h : Keyed out s) {k : SimpleKey} (hk : StartsAt (out ++ s.queue) k.number)
    (hlower : s.taken ≤ k.number) (hkeys : ∀ k' ∈ s.keys, k'.2.number < k.number)
    {kinds : List TokenKind} (hkinds : kinds = [.key] ∨ kinds = [.blockMappingStart, .key]) :
    Keyed out (s.insertBefore k kinds) := by
  obtain ⟨u, hu, hpart⟩ := hk.part
  have hlength := hk.lt_length
  -- Seen from the first token on, they are put in at the number of the key.
  have hinserted : out ++ (s.insertBefore k kinds).queue =
      (out ++ s.queue).take k.number ++ ((kinds.map fun kind => Token.mk kind k.mark k.mark) ++
        (out ++ s.queue).drop k.number) := by
    rw [h.taken] at hlower
    rw [List.take_append, List.take_of_length_le hlower, List.drop_append,
      List.drop_of_length_le hlower, ← h.taken, List.nil_append]
    simp only [Lexer.insertBefore, List.append_assoc]
  have hhead : ((out ++ s.queue).drop k.number).head? = some u := by
    rw [List.head?_drop, hu]
  have hsplit := List.take_append_drop k.number (out ++ s.queue)
  have hchain := h.chain
  rw [← hsplit, List.isChain_append] at hchain
  have hne : (out ++ s.queue).drop k.number ≠ [] := by
    intro hnil
    rw [hnil] at hhead
    cases hhead
  -- What is put in is virtual, and its last token stands before the part of a node.
  have hmiddle : (∀ t ∈ kinds.map fun kind => Token.mk kind k.mark k.mark,
        t.kind.isVirtual = true) ∧
      ((kinds.map fun kind => Token.mk kind k.mark k.mark) ++
        (out ++ s.queue).drop k.number).IsChain Token.Leads := by
    have hkey : ((⟨.key, k.mark, k.mark⟩ : Token) ::
        (out ++ s.queue).drop k.number).IsChain Token.Leads := by
      refine List.isChain_cons.2 ⟨?_, hchain.2.1⟩
      intro t ht _
      rw [hhead] at ht
      cases ht
      exact Or.inr hpart
    rcases hkinds with rfl | rfl
    · refine ⟨?_, hkey⟩
      intro t ht
      rcases List.mem_singleton.1 ht with rfl
      rfl
    · refine ⟨?_, List.isChain_cons.2 ⟨?_, hkey⟩⟩
      · intro t ht
        rcases List.mem_cons.1 ht with rfl | ht
        · rfl
        · rcases List.mem_singleton.1 ht with rfl
          rfl
      · intro t _ hstart
        cases hstart
  refine ⟨⟨?_, ?_⟩, h.taken, ?_, ?_, h.apart⟩
  · rw [hinserted]
    intro t ht hkind
    rcases List.mem_append.1 ht with ht | ht
    · exact h.wide t (List.mem_of_mem_take ht) hkind
    · rcases List.mem_append.1 ht with ht | ht
      · exact absurd (hmiddle.1 t ht) (by rw [hkind]; exact Bool.false_ne_true)
      · exact h.wide t (List.mem_of_mem_drop ht) hkind
  · rw [hinserted]
    refine List.isChain_append.2 ⟨hchain.1, hmiddle.2, ?_⟩
    intro t ht _ _ hkey
    exact Or.inl (hk.free t ht hkey)
  · have hlast := h.last
    rw [← hsplit, List.getLast?_append_of_ne_nil _ hne] at hlast
    rw [hinserted, List.getLast?_append_of_ne_nil _ (List.append_ne_nil_of_right_ne_nil _ hne),
      List.getLast?_append_of_ne_nil _ hne]
    exact hlast
  · rw [hinserted]
    intro k' hk'
    refine (h.keys k' hk').congr ?_
    have hbefore : k'.2.number + 1 ≤ k.number := hkeys k' hk'
    rw [List.take_append_of_le_length, List.take_take, Nat.min_eq_left hbefore]
    rw [List.length_take, Nat.min_eq_left (Nat.le_of_lt hlength)]
    exact hbefore

/-- A token that leaves the queue keeps its place among all tokens. -/
theorem take (h : Keyed out s) {t : Token} {rest : List Token} (hqueue : s.queue = t :: rest) :
    Keyed (out ++ [t]) { s with queue := rest, taken := s.taken + 1 } := by
  have hall : out ++ [t] ++ rest = out ++ s.queue := by
    rw [hqueue, List.append_assoc, List.singleton_append]
  refine ⟨?_, ?_, ?_, ?_, h.apart⟩
  · rw [hall]
    exact h.toWritten
  · rw [List.length_append, List.length_singleton, h.taken]
  · rw [hall]
    exact h.last
  · rw [hall]
    exact h.keys

/-- The tokens that left the queue are written, with or without those left in it. -/
theorem written_out (h : Keyed out s) : Written (out ++ []) := by
  rw [List.append_nil]
  exact ⟨fun t ht => h.wide t (List.mem_append_left _ ht), h.chain.left_of_append⟩

theorem ofText (cs : List Char) : Keyed [] (Lexer.ofText cs) := by
  refine ⟨⟨?_, List.isChain_singleton _⟩, rfl, ?_, ?_, ?_⟩
  · intro t ht hkind
    rcases List.mem_singleton.1 ht with rfl
    cases hkind
  · intro t ht hkey
    cases ht
    cases hkey
  · intro k hk
    cases hk
  · intro k hk
    cases hk

/-! ## Reading one token -/

theorem pushHere (h : Keyed out s) {kind : TokenKind} (hvirtual : kind.isVirtual = true)
    (hkey : kind ≠ .key) : Keyed out (s.pushHere kind) := by
  refine h.push rfl rfl (fun k hk => hk) ?_
  rintro (hkind | hkind)
  · exact absurd (hvirtual.symm.trans hkind) (by decide)
  · exact absurd hkind hkey

theorem unwind (h : Keyed out s) (column : Int) : Keyed out (s.unwind column) := by
  refine unwind_induction column ?_ h
  intro s indent rest _ h
  have hend : Keyed out (s.pushHere .blockEnd) := h.pushHere rfl TokenKind.noConfusion
  exact hend.forget rfl rfl fun k hk => hk

theorem openOutsideFlow (h : Keyed out s) {start : TokenKind}
    (hstart : start = .blockSequenceStart ∨ start = .blockMappingStart) :
    Keyed out (if s.inFlow then s else s.openHere start) := by
  rcases openOutsideFlow_cases start s with heq | heq
  · rw [heq]
    exact h
  · rw [heq]
    have hopened : Keyed out { s with
        indent := Int.ofNat s.mark.column, outer := s.indent :: s.outer } :=
      h.forget rfl rfl fun k hk => hk
    rcases hstart with rfl | rfl <;> exact hopened.pushHere rfl TokenKind.noConfusion

/-- A colon after a possible key, which stands behind all the others. -/
theorem putKey (h : Keyed out s) {lo : Nat} {text : List Char} (hsteady : Steady lo text s)
    {k : SimpleKey} (hkey : s.key? = some k) : Keyed out (s.putKey k) := by
  rcases Option.map_eq_some_iff.1 hkey with ⟨⟨level, k'⟩, hfind, rfl⟩
  have hmem := List.mem_of_find?_eq_some hfind
  have hlevel : level = s.flow := by simpa using List.find?_some hfind
  have hlower : s.taken ≤ k'.number := (hsteady.keys _ hmem).2.2.2.lower
  have hstarts : StartsAt (out ++ s.queue) k'.number := h.keys _ hmem
  have houter : ∀ k ∈ s.keys.filter fun k => k.1 != s.flow, k.2.number < k'.number := by
    intro k hk
    rcases hsteady.key_below hk with ⟨hk, hbelow⟩
    exact h.apart k hk _ hmem (hlevel ▸ hbelow)
  rcases putKey_cases k' s with ⟨opened, kinds, heq, hcases⟩
  rw [heq]
  have hkeyed : ∀ indent outer, Keyed out { s with
      keys := s.keys.filter fun k => k.1 != s.flow, indent := indent, outer := outer } := by
    intro indent outer
    exact h.forget rfl rfl fun k hk => (List.mem_filter.1 hk).1
  rcases hcases with ⟨rfl, hkinds⟩ | ⟨rfl, hkinds⟩
  · exact (hkeyed _ _).insertBefore hstarts hlower houter (Or.inl hkinds)
  · exact (hkeyed _ _).insertBefore hstarts hlower houter (Or.inr hkinds)

/-- What is read where a character is left has width, and what was noted is a part of a node. -/
theorem fetches (h : Keyed out s) {lo : Nat} {text : List Char} (hsteady : Steady lo text s)
    (hrest : s.cursor.rest ≠ []) {t : Token} (hfetches : Fetches s t s') : Keyed out s' := by
  cases hfetches with
  | @read ready next flow keyAllowed hready hshows _ =>
    have hwide : t.Wide := hshows.reads.wide hrest
    have hpush : Keyed out ready → Keyed out { ready.push t with
        cursor := next, flow := flow, keyAllowed := keyAllowed } := by
      intro hkeyed
      exact hkeyed.push rfl rfl (fun k hk => hk) fun _ => hwide
    cases hready with
    | margin hdrop => exact hpush ((h.unwind (-1)).dropKey hdrop)
    | part hpart hsave =>
      exact h.note (fun k hk => (hsteady.keys k hk).1) hsave rfl rfl rfl hpart hwide
    | forget hdrop => exact hpush (h.dropKey hdrop)
    | entry hstart hdrop => exact hpush ((h.openOutsideFlow hstart).dropKey hdrop)
    | value hkey => exact hpush (h.putKey hsteady hkey)

theorem fetchStreamEnd (h : Keyed out s) (hfetch : s.fetchStreamEnd = .ok s') : Keyed out s' := by
  rcases Outcome.bind_eq_ok.1 hfetch with ⟨dropped, hdrop, hlast⟩
  cases hlast
  have hkeyless : Keyed out { dropped with keyAllowed := false, keys := [] } :=
    ((h.unwind (-1)).dropKey hdrop).forget rfl rfl fun k hk => absurd hk List.not_mem_nil
  have hended : Keyed out ({ dropped with keyAllowed := false, keys := [] }.pushHere .streamEnd) :=
    hkeyless.pushHere rfl TokenKind.noConfusion
  exact hended.forget rfl rfl fun k hk => hk

theorem fetchHere (h : Keyed out s) {lo : Nat} {text : List Char} (hsteady : Steady lo text s)
    (hfetch : s.fetchHere = .ok s') : Keyed out s' := by
  rcases fetches_fetchHere hfetch with ⟨-, hend⟩ | ⟨hrest, t, hfetches⟩
  · exact h.fetchStreamEnd hend
  · exact h.fetches hsteady hrest hfetches

theorem fetch (h : Keyed out s) {lo : Nat} {text : List Char} (hsteady : Steady lo text s)
    (hfetch : s.fetch = .ok s') : Keyed out s' := by
  rcases Outcome.bind_eq_ok.1 hfetch with ⟨fresh, hfresh, hhere⟩
  have hgap : Keyed out s.skipGap := h.forget rfl rfl fun k hk => hk
  exact ((hgap.dropStale hfresh).unwind _).fetchHere
    ((hsteady.skipGap.dropStale hfresh).unwind _) hhere

end Keyed
end Lexer

namespace TokenStream

open Lexer

/-- Whatever the number of steps, the tokens that left the queue and those that will are written. -/
theorem written_runFrom {lo : Nat} {text : List Char} {out : List Token} {s : Lexer} (fuel : Nat)
    (hsteady : Steady lo text s) (h : Keyed out s) : Written (out ++ (runFrom fuel s).tokens) := by
  induction fuel generalizing lo out s with
  | zero => exact h.written_out
  | succ fuel ih =>
    have htake : ∀ (s' : Lexer) (t : Token) (rest : List Token), Steady lo text s' →
        Keyed out s' → s'.queue = t :: rest → (∀ k ∈ s'.keys, k.2.number ≠ s'.taken) →
        Written (out ++ ((runFrom fuel { s' with
          queue := rest, taken := s'.taken + 1 }).cons t).tokens) := by
      intro s' t rest hsteady hkeyed hqueue hdecided
      have hrest := ih (hsteady.take hqueue hdecided).2.2 (hkeyed.take hqueue)
      rw [List.append_assoc] at hrest
      exact hrest
    rw [runFrom_succ]
    generalize hmove : move s = next
    have hmoves : Moves s next := hmove ▸ moves_move s
    cases hmoves with
    | finish => exact h.written_out
    | stop => exact h.written_out
    | @read fresh hopen hfresh =>
      have hboth : Steady lo text fresh ∧ Keyed out fresh ∧ fresh.finished = false := by
        rcases hfresh with rfl | hdrop
        · exact ⟨hsteady, h, hopen⟩
        · exact ⟨hsteady.dropStale hdrop, h.dropStale hdrop, by rw [dropStale_eq hdrop, hopen]⟩
      rw [follow, readOn]
      cases hfetch : fresh.fetch with
      | error halt => exact h.written_out
      | ok next => exact ih (hboth.1.fetch hboth.2.2 hfetch) (hboth.2.1.fetch hboth.1 hfetch)
    | takeLast hfinished hqueue =>
      refine htake s _ _ hsteady h hqueue ?_
      rw [hsteady.closed hfinished]
      intro k hk
      cases hk
    | @take fresh t rest hopen hdrop hdecided hqueue =>
      refine htake fresh t rest (hsteady.dropStale hdrop) (h.dropStale hdrop) hqueue ?_
      intro k hk hnumber
      have hundecided : fresh.headUndecided = true :=
        List.any_eq_true.2 ⟨k, hk, by simpa using hnumber⟩
      exact absurd (hdecided.symm.trans hundecided) Bool.false_ne_true

theorem written_ofChars (cs : List Char) : Written (ofChars cs).tokens := by
  unfold ofChars
  split
  · exact ⟨fun t ht => absurd ht List.not_mem_nil, List.isChain_nil⟩
  · exact written_runFrom (steps cs) (Steady.ofText cs) (Keyed.ofText cs)

end TokenStream
end Yaml
end YamlServer
