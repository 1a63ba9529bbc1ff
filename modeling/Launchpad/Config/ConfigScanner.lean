/-
# The configuration of a directory

`ConfigScanner` of `src/config/config_scanner.cpp`: the `.ini` files of a
directory in alphabetical order of their paths, their settings merged, a later
one over an earlier one, and their actions appended. A setting keeps its default
unless a file gives it, an interval unless a file gives a positive one, so the
hotkey interval is never zero (`scanDirectory_hotInterval_pos`).
-/
import Launchpad.Config.IniParser
import Mathlib.Data.Char
import Mathlib.Data.List.Lex
import Mathlib.Data.List.Sort

namespace Launchpad

/-- The settings of `LaunchpadSettings` that a scan reads; intervals are in
milliseconds. -/
structure LaunchpadSettings where
  introducerKey : Str := "Shift".toList
  trailerKey : Str := "Enter".toList
  hotInterval : UInt32 := 700
  interKeyDelay : UInt32 := 300
  scriptDirectory : Str := "./scripts".toList
  keyboardDevice : Str := "/dev/input/event0".toList
  fivewayDevice : Str := "/dev/input/event1".toList
  deriving DecidableEq

structure ScannedConfig where
  settings : LaunchpadSettings := {}
  actions : List IniEntry := []
  deriving DecidableEq

/-- A directory: the names `readdir` gives, none if it cannot be opened, and the
text of the file at a path, `none` if that cannot be opened. -/
structure Directory where
  names : List Str
  read : Str → Option Str

namespace ConfigScanner

/-- The full paths of the `.ini` files, sorted. -/
def findIniFiles (directoryPath : Str) (dir : Directory) : List Str :=
  let names := dir.names.filter fun name => name.length > 4 ∧ ".ini".toList <:+ name
  let base :=
    if directoryPath ≠ [] ∧ directoryPath.getLast? ≠ some '/' then directoryPath ++ "/".toList
    else directoryPath
  (names.map fun name => base ++ name).insertionSort (· ≤ ·)

/-- The positive interval a document gives for a key, if it gives one. -/
def getInterval (doc : IniDocument) (key : Str) (current : UInt32) : UInt32 :=
  let value := doc.getInt "Settings".toList key 0
  if value > 0 then UInt32.ofNat value.toNat else current

def applySettings (settings : LaunchpadSettings) (doc : IniDocument) : LaunchpadSettings :=
  if doc.hasSection "Settings".toList = false then settings
  else
    let get := fun key current => (doc.getString "Settings".toList key).getD current
    { introducerKey := get "Introducer".toList settings.introducerKey
      trailerKey := get "Trailer".toList settings.trailerKey
      scriptDirectory := get "ScriptDirectory".toList settings.scriptDirectory
      keyboardDevice := get "KeyboardInput".toList settings.keyboardDevice
      fivewayDevice := get "FivewayInput".toList settings.fivewayDevice
      hotInterval := getInterval doc "HotInterval".toList settings.hotInterval
      interKeyDelay := getInterval doc "InterKeyDelay".toList settings.interKeyDelay }

/-- One file of the scan; a file that cannot be opened is skipped. -/
def scanFile (result : ScannedConfig) (content : Option Str) : ScannedConfig :=
  match content with
  | none => result
  | some text =>
    let doc := IniParser.parseString text
    { settings := applySettings result.settings doc
      actions := result.actions ++ doc.getSectionEntries "Actions".toList }

def scanDirectory (directoryPath : Str) (dir : Directory) : ScannedConfig :=
  (findIniFiles directoryPath dir).foldl (fun result path => scanFile result (dir.read path)) {}

/-! ### The actions -/

/-- The entries of the `[Actions]` section of a file; none if it cannot be opened. -/
def fileActions : Option Str → List IniEntry
  | none => []
  | some text => (IniParser.parseString text).getSectionEntries "Actions".toList

/-- The `[Actions]` entries of a directory, in the order of its scan. -/
def actionEntries (directoryPath : Str) (dir : Directory) : List IniEntry :=
  (findIniFiles directoryPath dir).flatMap fun path => fileActions (dir.read path)

theorem scanFile_actions (result : ScannedConfig) (content : Option Str) :
    (scanFile result content).actions = result.actions ++ fileActions content := by
  cases content with
  | none => exact (List.append_nil _).symm
  | some text => rfl

theorem scanFiles_actions (read : Str → Option Str) : ∀ (paths : List Str) (result : ScannedConfig),
    (paths.foldl (fun result path => scanFile result (read path)) result).actions =
      result.actions ++ paths.flatMap fun path => fileActions (read path)
  | [], result => (List.append_nil _).symm
  | path :: paths, result => by
    rw [List.foldl_cons, scanFiles_actions read paths, scanFile_actions, List.flatMap_cons,
      List.append_assoc]

theorem scanDirectory_actions (directoryPath : Str) (dir : Directory) :
    (scanDirectory directoryPath dir).actions = actionEntries directoryPath dir :=
  scanFiles_actions dir.read _ {}

/-! ### The hotkey interval -/

theorem toInt_le {value n : ℤ} (h : toInt value = some n) : n ≤ 2147483647 := by
  unfold toInt at h
  split_ifs at h with hint
  rw [← Option.some.inj h]
  exact hint.2

theorem stoi_le {s : Str} {n : ℤ} (h : stoi s = some n) : n ≤ 2147483647 := by
  have hcond : ∀ (empty : Prop) [Decidable empty] (value : ℤ),
      (if empty then none else toInt value) = some n → n ≤ 2147483647 := by
    intro empty _ value hvalue
    split_ifs at hvalue
    exact toInt_le hvalue
  exact hcond _ _ h

theorem getInt_le (doc : IniDocument) (sect key : Str) : doc.getInt sect key 0 ≤ 2147483647 := by
  unfold IniDocument.getInt
  cases doc.getString sect key with
  | none => decide
  | some value =>
    cases h : stoi value with
    | none => simp [h]
    | some n => simpa [h] using stoi_le h

theorem getInterval_pos {doc : IniDocument} {key : Str} {current : UInt32} (h : 0 < current) :
    0 < getInterval doc key current := by
  have hle := getInt_le doc "Settings".toList key
  simp only [getInterval]
  split_ifs with hpos
  · rw [UInt32.lt_iff_toNat_lt, UInt32.toNat_ofNat_of_lt' (by simp only [UInt32.size]; omega)]
    simp only [UInt32.toNat_zero]
    omega
  · exact h

theorem scanFile_hotInterval_pos {result : ScannedConfig} (h : 0 < result.settings.hotInterval)
    (content : Option Str) : 0 < (scanFile result content).settings.hotInterval := by
  unfold scanFile
  cases content with
  | none => exact h
  | some text =>
    simp only [applySettings]
    split_ifs
    · exact h
    · exact getInterval_pos h

/-- A configuration never sets the hotkey interval to zero. -/
theorem scanDirectory_hotInterval_pos (directoryPath : Str) (dir : Directory) :
    0 < (scanDirectory directoryPath dir).settings.hotInterval := by
  have hfold : ∀ (paths : List Str) (result : ScannedConfig), 0 < result.settings.hotInterval →
      0 < (paths.foldl (fun result path => scanFile result (dir.read path))
        result).settings.hotInterval := by
    intro paths
    induction paths with
    | nil => exact fun _ h => h
    | cons path paths ih => exact fun result h => ih _ (scanFile_hotInterval_pos h _)
  exact hfold _ _ (by decide)

end ConfigScanner
end Launchpad
