/-
# Actions and their registry

`ActionParser` and `ActionRegistry` of `src/domain/action.cpp` and
`src/domain/action_registry.cpp`: what an entry of the configuration binds, and
what a captured sequence is bound to. The registry keeps the first action of a
sequence, and looks the reserved sequence up before any other.
-/
import Launchpad.KeyTable
import Launchpad.Words

namespace Launchpad

open KeyCodes

/-- `ActionPayload`. -/
inductive ActionPayload
  | shell (command : Str)
  | script (scriptPath : Str)
  | kindleKeys (keys : Str)
  | sendKeys (keys : Str)
  | screenshot
  deriving DecidableEq

structure Action where
  displayName : Str
  payload : ActionPayload
  deriving DecidableEq

/-! ### Parsing -/

namespace ActionParser

def buildScriptPath (script scriptDir : Str) : Str :=
  match script with
  | [] => []
  | c :: _ =>
    if c = '/' ∨ scriptDir = [] then script
    else if scriptDir.getLast? = some '/' then scriptDir ++ script
    else scriptDir ++ "/".toList ++ script

def parseCommand (commandStr displayName scriptDir : Str) : Action :=
  match commandStr with
  | [] => ⟨displayName, .sendKeys []⟩
  | '!' :: rest => ⟨displayName, .shell rest⟩
  | '@' :: rest => ⟨displayName, .script (buildScriptPath rest scriptDir)⟩
  | '#' :: rest => ⟨displayName, .kindleKeys rest⟩
  | '\\' :: rest => ⟨displayName, .sendKeys rest⟩
  | _ => ⟨displayName, .sendKeys commandStr⟩

/-- The codes of all words of the text; `none` if one is unknown, or there are
no words. -/
def parseSequence (sequenceStr : Str) (keyTable : KeyTable) : Option KeySequence :=
  match (Words.words isspace sequenceStr).mapM keyTable.findCode with
  | none => none
  | some [] => none
  | some sequence => some sequence

/-- The text names no key, or one that is unknown. -/
def Unresolved (keyTable : KeyTable) (sequenceStr : Str) : Prop :=
  Words.words isspace sequenceStr = [] ∨
    ∃ w ∈ Words.words isspace sequenceStr, keyTable.findCode w = none

theorem mapM_eq_some {α β : Type*} {f : α → Option β} {as : List α} {bs : List β}
    (h : List.Forall₂ (fun a b => f a = some b) as bs) : as.mapM f = some bs := by
  induction h with
  | nil => rfl
  | cons hab _ ih =>
    rw [List.mapM_cons, ih, hab]
    rfl

/-- Known names have these codes. -/
theorem forall₂_codes {f : Str → Option RawKeyCode} {names : List Str}
    (h : ∀ n ∈ names, (f n).isSome = true) :
    List.Forall₂ (fun n c => f n = some c) names (names.map fun n => (f n).getD 0) := by
  rw [List.forall₂_map_right_iff, List.forall₂_same]
  intro n hn
  obtain ⟨code, hcode⟩ := Option.isSome_iff_exists.mp (h n hn)
  rw [hcode]
  rfl

theorem parseSequence_eq_some {keyTable : KeyTable} {sequenceStr : Str} {s : KeySequence} (hs : s ≠ [])
    (h : List.Forall₂ (fun w c => keyTable.findCode w = some c) (Words.words isspace sequenceStr) s) :
    parseSequence sequenceStr keyTable = some s := by
  rw [parseSequence, mapM_eq_some h]
  cases s with
  | nil => exact absurd rfl hs
  | cons c s => rfl

theorem parseSequence_eq_none {keyTable : KeyTable} {sequenceStr : Str}
    (h : Unresolved keyTable sequenceStr) : parseSequence sequenceStr keyTable = none := by
  unfold parseSequence
  rcases h with hempty | ⟨w, hw, hnone⟩
  · rw [hempty]
    rfl
  · obtain ⟨pre, post, hwords⟩ := List.append_of_mem hw
    have hmap : (Words.words isspace sequenceStr).mapM keyTable.findCode = none := by
      simp [hwords, List.mapM_append, List.mapM_cons, hnone]
    rw [hmap]

/-- A text that is not resolved is the only one that is not parsed. -/
theorem parseSequence_eq_none_iff {keyTable : KeyTable} {sequenceStr : Str} :
    parseSequence sequenceStr keyTable = none ↔ Unresolved keyTable sequenceStr := by
  refine ⟨fun hnone => ?_, parseSequence_eq_none⟩
  by_contra hnot
  obtain ⟨hne, hknown⟩ := not_or.mp hnot
  have hsome : ∀ w ∈ Words.words isspace sequenceStr, (keyTable.findCode w).isSome = true := by
    intro w hw
    rw [Option.isSome_iff_ne_none]
    exact fun hcode => hknown ⟨w, hw, hcode⟩
  rw [parseSequence_eq_some (by simpa using hne) (forall₂_codes hsome)] at hnone
  exact nomatch hnone

end ActionParser

/-! ### The registry -/

structure ActionRegistry where
  screenshotSequence : KeySequence := [kpkeyShift, kpkeyShift]
  actions : AList fun _ : KeySequence => Action := ∅

namespace ActionRegistry

def registerAction (r : ActionRegistry) (sequence : KeySequence) (action : Action) : ActionRegistry :=
  if sequence ∈ r.actions then r
  else { r with actions := r.actions.insert sequence action }

def findAction (r : ActionRegistry) (sequence : KeySequence) : Option Action :=
  if sequence = r.screenshotSequence then some ⟨"[Screenshot]".toList, .screenshot⟩
  else r.actions.lookup sequence

def clear (r : ActionRegistry) : ActionRegistry := { r with actions := ∅ }

@[simp] theorem registerAction_screenshotSequence (r : ActionRegistry) (sequence : KeySequence)
    (action : Action) :
    (r.registerAction sequence action).screenshotSequence = r.screenshotSequence := by
  unfold registerAction
  split_ifs <;> rfl

@[simp] theorem lookup_clear (r : ActionRegistry) (sequence : KeySequence) :
    r.clear.actions.lookup sequence = none := by simp [clear]

/-- The first registration of a sequence stands. -/
theorem lookup_registerAction (r : ActionRegistry) (sequence s : KeySequence) (action : Action) :
    (r.registerAction sequence action).actions.lookup s =
      (r.actions.lookup s).or (if s = sequence then some action else none) := by
  unfold registerAction
  split_ifs with hmem heq heq
  · obtain ⟨a, ha⟩ := Option.isSome_iff_exists.mp (AList.lookup_isSome.mpr hmem)
    rw [heq, ha]
    rfl
  · rw [Option.or_none]
  · rw [heq, AList.lookup_insert, AList.lookup_eq_none.mpr hmem]
    rfl
  · rw [AList.lookup_insert_ne heq, Option.or_none]

end ActionRegistry
end Launchpad
