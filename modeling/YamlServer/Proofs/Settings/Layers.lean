import YamlServer.Proofs.Outcome
import YamlServer.Settings

/-!
# Layers of settings

Settings are made by merging layers, one member after the other. The outcome can be read off the
layers: each choice is the one that is mentioned last, whatever was chosen before.

* `Settings.Follows.merged`: a layer that can be applied is merged and followed.
-/

namespace YamlServer

open Outcome

namespace Settings

/-! ## Mentions -/

def mention? (c : Choice) (members : List (Value × Value)) : Option Value :=
  ((members.filter fun m => choice? m.1 = some c).getLast?).map (·.2)

def lastMention? (c : Choice) (layers : List (List (Value × Value))) : Option Value :=
  (layers.filterMap (mention? c)).getLast?

def isRecognised (member : Value × Value) : Bool :=
  (choice? member.1).isSome

variable {c : Choice} {key v : Value} {members : List (Value × Value)}
  {layers : List (List (Value × Value))}

@[simp]
theorem mention?_concat (c : Choice) (members : List (Value × Value)) (key v : Value) :
    mention? c (members ++ [(key, v)]) =
      if choice? key = some c then some v else mention? c members := by
  unfold mention?
  rw [List.filter_append]
  split
  · rename_i hkey
    simp [hkey]
  · rename_i hkey
    simp [hkey]

@[simp]
theorem lastMention?_concat (c : Choice) (layers : List (List (Value × Value)))
    (members : List (Value × Value)) :
    lastMention? c (layers ++ [members]) = (mention? c members).or (lastMention? c layers) := by
  unfold lastMention?
  rw [List.filterMap_append, List.getLast?_append]
  cases hmention : mention? c members with
  | none => rw [List.filterMap_cons_none hmention]; rfl
  | some v => rw [List.filterMap_cons_some hmention]; rfl

@[simp]
theorem mention?_filter (c : Choice) (members : List (Value × Value)) :
    mention? c (members.filter isRecognised) = mention? c members := by
  have hfilter : (members.filter isRecognised).filter (fun m => choice? m.1 = some c) =
      members.filter fun m => choice? m.1 = some c := by
    rw [List.filter_filter]
    refine List.filter_congr ?_
    intro m _
    by_cases hm : choice? m.1 = some c
    · simp [isRecognised, hm]
    · simp [hm]
  rw [mention?, hfilter, mention?]

/-! ## Normal values -/

/-- The tags that a value lists, as texts; a value that counts for nothing lists none. -/
def normalTags (v : Value) : List String :=
  if v.isTrue then ((Graph.items? v).getD []).map Value.plainText else []

/-- A schema path in a workspace. A value that counts for nothing stays as it is. Of any other one
the text is taken: a home directory that it starts with is filled in, and a path that is then
relative is put below the workspace. -/
def normalPath (homes : List (String × String)) (root : String) (v : Value) : Value :=
  if v.isTrue then
    match (Path.parse v.plainText).expandHome homes with
    | .ok p => .str ((Path.parse root).join p).text
    | .error _ => v
  else v

/-- Settings of a workspace in which each choice is the one that the last mention in the layers
makes, and the default if there is none. -/
structure Follows (homes : List (String × String)) (root : String)
    (layers : List (List (Value × Value))) (s : Settings) : Prop where
  customTags : s.customTags = ((lastMention? .customTags layers).map normalTags).getD []
  schemaPath :
    s.schemaPath = ((lastMention? .schemaPath layers).map (normalPath homes root)).getD .null
  validate : s.validate = ((lastMention? .validate layers).map Value.isTrue).getD true
  logLevel : s.logLevel = (lastMention? .logLevel layers).getD .null
  workspaceRoot : s.workspaceRoot = some root

theorem resolvePath_of_root {homes : List (String × String)} {root : String} (hroot : root ≠ "")
    (s : String) :
    resolvePath homes (some root) s =
      ((Path.parse s).expandHome homes).map fun p => ((Path.parse root).join p).text := by
  unfold resolvePath
  cases (Path.parse s).expandHome homes with
  | error f => rfl
  | ok p =>
    simp only [bind, Except.bind]
    rfl

/-! ## Choices -/

/-- The values that can be taken for a choice. Tags that count must be a collection, and what is
turned into text must be short enough to be written. A path may start only at the home of somebody
who is known. -/
def Takes (homes : List (String × String)) (v : Value) : Choice → Prop
  | .customTags => v.isTrue = true →
      ∃ items, Graph.items? v = some items ∧ ∀ item ∈ items, item.isWritable = true
  | .schemaPath => v.isTrue = true →
      v.isWritable = true ∧ ∃ p, (Path.parse v.plainText).expandHome homes = .ok p
  | .validate | .logLevel => True

/-- The layers whose members can all be taken, as far as they are recognised. -/
def Accepts (homes : List (String × String)) (members : List (Value × Value)) : Prop :=
  ∀ m ∈ members, ∀ c, choice? m.1 = some c → Takes homes m.2 c

section Choices

variable {homes : List (String × String)} {root : String} {base s s' : Settings}

theorem tagsOf_of_takes (h : Takes homes v .customTags) : tagsOf v = .ok (normalTags v) := by
  unfold tagsOf normalTags
  cases htrue : v.isTrue with
  | false => rfl
  | true =>
    rcases h htrue with ⟨items, hitems, hwritable⟩
    have hall : items.all Value.isWritable = true := List.all_eq_true.2 hwritable
    simp [hitems, hall]

theorem takes_of_tagsOf {tags : List String} (h : tagsOf v = .ok tags) :
    Takes homes v .customTags := by
  intro htrue
  rw [tagsOf, if_pos htrue] at h
  cases hitems : Graph.items? v with
  | none => simp [hitems] at h
  | some items =>
    simp only [hitems] at h
    split at h
    · rename_i hall
      exact ⟨items, rfl, List.all_eq_true.1 hall⟩
    · cases h

def withChoice (homes : List (String × String)) (root : String) (v : Value) (s : Settings) :
    Choice → Settings
  | .customTags => { s with customTags := normalTags v }
  | .schemaPath => { s with schemaPath := normalPath homes root v }
  | .validate => { s with validate := v.isTrue }
  | .logLevel => { s with logLevel := v }

section Fields

variable (homes : List (String × String)) (root : String) (v : Value) (s : Settings) (c : Choice)

@[simp]
theorem customTags_withChoice : (s.withChoice homes root v c).customTags =
    if c = .customTags then normalTags v else s.customTags := by
  cases c <;> rfl

@[simp]
theorem schemaPath_withChoice : (s.withChoice homes root v c).schemaPath =
    if c = .schemaPath then normalPath homes root v else s.schemaPath := by
  cases c <;> rfl

@[simp]
theorem validate_withChoice : (s.withChoice homes root v c).validate =
    if c = .validate then v.isTrue else s.validate := by
  cases c <;> rfl

@[simp]
theorem logLevel_withChoice : (s.withChoice homes root v c).logLevel =
    if c = .logLevel then v else s.logLevel := by
  cases c <;> rfl

@[simp]
theorem workspaceRoot_withChoice :
    (s.withChoice homes root v c).workspaceRoot = s.workspaceRoot := by
  cases c <;> rfl

end Fields

/-- A value that can be taken is, and nothing else changes. -/
theorem choose_of_takes (hroot : base.workspaceRoot = some root) (hne : root ≠ "")
    (h : Takes homes v c) : choose homes base c v s = .ok (s.withChoice homes root v c) := by
  cases c with
  | customTags =>
    rw [choose, tagsOf_of_takes h]
    rfl
  | validate => rfl
  | logLevel => rfl
  | schemaPath =>
    rw [choose, withChoice, normalPath]
    cases htrue : v.isTrue with
    | false => rfl
    | true =>
      rcases h htrue with ⟨hwritable, p, hp⟩
      simp [hwritable, hroot, resolvePath_of_root hne, hp, Except.map]

theorem takes_of_choose (h : choose homes base c v s = .ok s') : Takes homes v c := by
  cases c with
  | customTags =>
    rcases bind_eq_ok.1 h with ⟨tags, htags, -⟩
    exact takes_of_tagsOf htags
  | validate => trivial
  | logLevel => trivial
  | schemaPath =>
    intro htrue
    rw [choose, if_neg (by simp [htrue])] at h
    split at h
    · cases h
    · rename_i hwritable
      refine ⟨by simpa using hwritable, ?_⟩
      -- The path is resolved only after its home is filled in.
      cases hhome : (Path.parse v.plainText).expandHome homes with
      | ok p => exact ⟨p, rfl⟩
      | error f => simp [resolvePath, hhome, bind, Except.bind] at h

/-! ## Merging -/

/-- A recognised member is the last mention of its choice, and none of any other. -/
theorem lastMention?_member (c : Choice) (layers : List (List (Value × Value)))
    (members : List (Value × Value)) (key v : Value) :
    lastMention? c (layers ++ [members ++ [(key, v)]]) =
      if choice? key = some c then some v else lastMention? c (layers ++ [members]) := by
  rw [lastMention?_concat, lastMention?_concat, mention?_concat]
  split
  · rfl
  · rfl

namespace Follows

theorem ofRoot (homes : List (String × String)) (root : String) :
    Follows homes root [] (ofRoot (some root)) :=
  ⟨rfl, rfl, rfl, rfl, rfl⟩

theorem of_mentions {layers' : List (List (Value × Value))} (h : Follows homes root layers s)
    (hsame : ∀ c, lastMention? c layers' = lastMention? c layers) :
    Follows homes root layers' s := by
  refine ⟨?_, ?_, ?_, ?_, h.workspaceRoot⟩
  · rw [hsame]
    exact h.customTags
  · rw [hsame]
    exact h.schemaPath
  · rw [hsame]
    exact h.validate
  · rw [hsame]
    exact h.logLevel

theorem empty_layer (h : Follows homes root layers s) : Follows homes root (layers ++ [[]]) s := by
  refine h.of_mentions ?_
  intro c
  rw [lastMention?_concat]
  rfl

/-- Members that are not recognised may be left out. -/
theorem recognised (h : Follows homes root layers s) :
    Follows homes root (layers.map (·.filter isRecognised)) s := by
  refine h.of_mentions ?_
  intro c
  have hmention : mention? c ∘ (·.filter isRecognised) = mention? c := funext (mention?_filter c)
  rw [lastMention?, List.filterMap_map, hmention, lastMention?]

/-- A choice made for a member is the one that the member mentions. -/
theorem withChoice (h : Follows homes root (layers ++ [members]) s) (hkey : choice? key = some c) :
    Follows homes root (layers ++ [members ++ [(key, v)]]) (s.withChoice homes root v c) := by
  have hmention : ∀ c', lastMention? c' (layers ++ [members ++ [(key, v)]]) =
      if c = c' then some v else lastMention? c' (layers ++ [members]) := by
    intro c'
    rw [lastMention?_member, hkey]
    simp only [Option.some.injEq]
  refine ⟨?_, ?_, ?_, ?_, by simpa using h.workspaceRoot⟩
  · simp only [customTags_withChoice, hmention, h.customTags]
    split <;> rfl
  · simp only [schemaPath_withChoice, hmention, h.schemaPath]
    split <;> rfl
  · simp only [validate_withChoice, hmention, h.validate]
    split <;> rfl
  · simp only [logLevel_withChoice, hmention, h.logLevel]
    split <;> rfl

/-- Members that can be taken are, and the settings follow them behind those of the layer that were
taken before. -/
theorem chooseAll {taken : List (Value × Value)} (h : Follows homes root (layers ++ [taken]) s)
    (hroot : base.workspaceRoot = some root) (hne : root ≠ "") (haccepts : Accepts homes members) :
    ∃ s', Settings.chooseAll homes base members s = .ok s' ∧
      Follows homes root (layers ++ [taken ++ members]) s' := by
  induction members generalizing taken s with
  | nil => exact ⟨s, rfl, by rwa [List.append_nil]⟩
  | cons member rest ih =>
    rcases member with ⟨key, v⟩
    have hrest : Accepts homes rest := fun m hm => haccepts m (List.mem_cons_of_mem _ hm)
    have hsplit : taken ++ (key, v) :: rest = (taken ++ [(key, v)]) ++ rest := by simp
    rw [hsplit]
    cases hkey : choice? key with
    | none =>
      rw [Settings.chooseAll, hkey]
      refine ih (h.of_mentions ?_) hrest
      intro c
      rw [lastMention?_member, hkey, if_neg (by simp)]
    | some c =>
      have htakes : Takes homes v c := haccepts (key, v) List.mem_cons_self c hkey
      rw [Settings.chooseAll, hkey]
      simp only [choose_of_takes hroot hne htakes]
      exact ih (h.withChoice hkey) hrest

/-- A layer that can be merged is, and the settings follow it. -/
theorem merged (h : Follows homes root layers s) (hne : root ≠ "")
    (haccepts : Accepts homes members) :
    ∃ s', s.merged homes (.map members) = .ok s' ∧ Follows homes root (layers ++ [members]) s' := by
  rcases h.empty_layer.chooseAll h.workspaceRoot hne haccepts with ⟨s', hchoose, hfollows⟩
  cases members with
  | nil =>
    cases hchoose
    exact ⟨s, rfl, hfollows⟩
  | cons member rest =>
    refine ⟨s', ?_, hfollows⟩
    simp only [Settings.merged, merge?, Value.isTrue, List.isEmpty_cons, Bool.not_false, if_true,
      hchoose]
    rfl

end Follows

theorem accepts_of_chooseAll (h : chooseAll homes base members s = .ok s') :
    Accepts homes members := by
  induction members generalizing s with
  | nil =>
    intro m hm
    cases hm
  | cons member rest ih =>
    rcases member with ⟨key, v⟩
    rw [chooseAll] at h
    intro m hm c hc
    cases hkey : choice? key with
    | none =>
      rw [hkey] at h
      rcases List.mem_cons.1 hm with rfl | hrest
      · rw [hkey] at hc
        cases hc
      · exact ih h m hrest c hc
    | some c' =>
      rw [hkey] at h
      rcases bind_eq_ok.1 h with ⟨between, hfirst, hlast⟩
      rcases List.mem_cons.1 hm with rfl | hrest
      · cases hkey.symm.trans hc
        exact takes_of_choose hfirst
      · exact ih hlast m hrest c hc

theorem accepts_of_merged (h : s.merged homes (.map members) = .ok s') : Accepts homes members := by
  cases members with
  | nil =>
    intro m hm
    cases hm
  | cons member rest =>
    rcases map_eq_ok.1 h with ⟨new, hnew, -⟩
    simp only [merge?, Value.isTrue, List.isEmpty_cons, Bool.not_false, if_true] at hnew
    rcases map_eq_ok.1 hnew with ⟨s'', hchoose, -⟩
    exact accepts_of_chooseAll hchoose

end Choices
end Settings
end YamlServer
