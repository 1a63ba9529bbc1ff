/-
# The order of the files

The comment of `scan_directory` has `launchpad.ini` parsed first, and the other
files over it in alphabetical order (`prescribedScan`); the code has all of them
in alphabetical order. Settings are layers of which the last wins, actions are
appended, so the two scans differ in what a file sorted before `launchpad.ini`
and `launchpad.ini` itself both give: they are one exactly when no setting is
disputed between the two and their actions commute
(`scanDirectory_eq_prescribed_iff`).
-/
import Launchpad.Config.ConfigScanner
import Launchpad.Layers

namespace Launchpad

/-- The settings a file can give. -/
inductive Setting
  | introducer
  | trailer
  | scriptDirectory
  | keyboardInput
  | fivewayInput
  | hotInterval
  | interKeyDelay
  deriving DecidableEq

inductive SettingValue
  | text (value : Str)
  | interval (value : UInt32)
  deriving DecidableEq

def LaunchpadSettings.get (settings : LaunchpadSettings) : Setting → SettingValue
  | .introducer => .text settings.introducerKey
  | .trailer => .text settings.trailerKey
  | .scriptDirectory => .text settings.scriptDirectory
  | .keyboardInput => .text settings.keyboardDevice
  | .fivewayInput => .text settings.fivewayDevice
  | .hotInterval => .interval settings.hotInterval
  | .interKeyDelay => .interval settings.interKeyDelay

/-- Settings are their values. -/
theorem LaunchpadSettings.ext_get {s s' : LaunchpadSettings} (h : ∀ k, s.get k = s'.get k) : s = s' := by
  have hintroducer := h .introducer
  have htrailer := h .trailer
  have hscript := h .scriptDirectory
  have hkeyboard := h .keyboardInput
  have hfiveway := h .fivewayInput
  have hhot := h .hotInterval
  have hdelay := h .interKeyDelay
  simp only [get, SettingValue.text.injEq, SettingValue.interval.injEq] at *
  obtain ⟨_, _, _, _, _, _, _⟩ := s
  simp_all

namespace ConfigScanner

/-! ### What a file gives -/

def givenText (doc : IniDocument) (key : Str) : Option SettingValue :=
  (doc.getString "Settings".toList key).map .text

def givenInterval (doc : IniDocument) (key : Str) : Option SettingValue :=
  let value := doc.getInt "Settings".toList key 0
  if value > 0 then some (.interval (UInt32.ofNat value.toNat)) else none

/-- The value a file gives a setting; none if it cannot be opened. -/
def given : Option Str → Setting → Option SettingValue
  | none, _ => none
  | some text, setting =>
    let doc := IniParser.parseString text
    match setting with
    | .introducer => givenText doc "Introducer".toList
    | .trailer => givenText doc "Trailer".toList
    | .scriptDirectory => givenText doc "ScriptDirectory".toList
    | .keyboardInput => givenText doc "KeyboardInput".toList
    | .fivewayInput => givenText doc "FivewayInput".toList
    | .hotInterval => givenInterval doc "HotInterval".toList
    | .interKeyDelay => givenInterval doc "InterKeyDelay".toList

theorem text_getD (doc : IniDocument) (key current : Str) :
    SettingValue.text ((doc.getString "Settings".toList key).getD current) =
      (givenText doc key).getD (.text current) := by
  unfold givenText
  cases doc.getString "Settings".toList key <;> rfl

theorem interval_getD (doc : IniDocument) (key : Str) (current : UInt32) :
    SettingValue.interval (getInterval doc key current) =
      (givenInterval doc key).getD (.interval current) := by
  simp only [getInterval, givenInterval]
  split_ifs <;> rfl

theorem getString_of_hasSection {doc : IniDocument} {sect : Str} (h : doc.hasSection sect = false)
    (key : Str) : doc.getString sect key = none := by
  have hlookup : doc.sections.lookup (IniDocument.normalizeKey sect) = none := by
    apply AList.lookup_eq_none.mpr
    simpa [IniDocument.hasSection] using h
  rw [IniDocument.getString, hlookup]

/-- A document without the section gives nothing. -/
theorem givenText_of_hasSection {doc : IniDocument} (h : doc.hasSection "Settings".toList = false)
    (key : Str) : givenText doc key = none := by
  rw [givenText, getString_of_hasSection h]
  rfl

theorem givenInterval_of_hasSection {doc : IniDocument}
    (h : doc.hasSection "Settings".toList = false) (key : Str) : givenInterval doc key = none := by
  unfold givenInterval IniDocument.getInt
  rw [getString_of_hasSection h]
  rfl

/-- A setting is what the file gives, or what it was. -/
theorem get_scanFile (result : ScannedConfig) (content : Option Str) (setting : Setting) :
    (scanFile result content).settings.get setting =
      (given content setting).getD (result.settings.get setting) := by
  cases content with
  | none => rfl
  | some text =>
    unfold scanFile applySettings
    simp only
    split_ifs with hsection
    · have hnone : given (some text) setting = none := by
        have htext := fun key => givenText_of_hasSection hsection key
        have hinterval := fun key => givenInterval_of_hasSection hsection key
        cases setting with
        | introducer => exact htext _
        | trailer => exact htext _
        | scriptDirectory => exact htext _
        | keyboardInput => exact htext _
        | fivewayInput => exact htext _
        | hotInterval => exact hinterval _
        | interKeyDelay => exact hinterval _
      rw [hnone]
      rfl
    · cases setting with
      | introducer => exact text_getD _ _ _
      | trailer => exact text_getD _ _ _
      | scriptDirectory => exact text_getD _ _ _
      | keyboardInput => exact text_getD _ _ _
      | fivewayInput => exact text_getD _ _ _
      | hotInterval => exact interval_getD _ _ _
      | interKeyDelay => exact interval_getD _ _ _

/-! ### The two orders -/

variable (directoryPath : Str) (dir : Directory)

/-- The path of `launchpad.ini`. -/
def baseFile : Str :=
  (if directoryPath ≠ [] ∧ directoryPath.getLast? ≠ some '/' then directoryPath ++ "/".toList
  else directoryPath) ++ "launchpad.ini".toList

/-- The scan of files in a given order. -/
def scanFiles (paths : List Str) : ScannedConfig :=
  paths.foldl (fun result path => scanFile result (dir.read path)) {}

/-- The scan of the comment: `launchpad.ini` first, then all others in
alphabetical order. -/
def prescribedScan : ScannedConfig :=
  let files := findIniFiles directoryPath dir
  scanFiles dir (files.filter (· = baseFile directoryPath) ++
    files.filter (· ≠ baseFile directoryPath))

/-- The files sorted before `launchpad.ini`. -/
def filesBefore : List Str := (findIniFiles directoryPath dir).filter (· < baseFile directoryPath)

/-- `launchpad.ini` itself. -/
def filesBase : List Str := (findIniFiles directoryPath dir).filter (· = baseFile directoryPath)

/-- The files sorted after it. -/
def filesAfter : List Str := (findIniFiles directoryPath dir).filter (baseFile directoryPath < ·)

theorem sorted_findIniFiles : (findIniFiles directoryPath dir).Pairwise (· ≤ ·) :=
  List.pairwise_insertionSort _ _

theorem scanDirectory_eq : scanDirectory directoryPath dir = scanFiles dir
    (filesBefore directoryPath dir ++ (filesBase directoryPath dir ++ filesAfter directoryPath dir)) :=
  congrArg (scanFiles dir) (Layers.sorted_split _ _ (sorted_findIniFiles directoryPath dir))

theorem prescribedScan_eq : prescribedScan directoryPath dir = scanFiles dir
    (filesBase directoryPath dir ++ (filesBefore directoryPath dir ++ filesAfter directoryPath dir)) :=
  congrArg (fun files => scanFiles dir (filesBase directoryPath dir ++ files))
    (Layers.sorted_filter_ne _ (sorted_findIniFiles directoryPath dir))

/-! ### When they agree -/

theorem scannedConfig_eq_iff {result result' : ScannedConfig} : result = result' ↔
    (∀ setting, result.settings.get setting = result'.settings.get setting) ∧
      result.actions = result'.actions := by
  constructor
  · rintro rfl
    exact ⟨fun _ => rfl, rfl⟩
  · rintro ⟨hsettings, hactions⟩
    obtain ⟨settings, actions⟩ := result
    obtain rfl : settings = result'.settings := LaunchpadSettings.ext_get hsettings
    obtain rfl : actions = result'.actions := hactions
    rfl

/-- The `[Actions]` entries of the files, in order. -/
def actionsOf (paths : List Str) : List IniEntry := paths.flatMap fun path => fileActions (dir.read path)

theorem scanFiles_append_actions (as bs cs : List Str) :
    (scanFiles dir (as ++ (bs ++ cs))).actions = actionsOf dir as ++ (actionsOf dir bs ++ actionsOf dir cs) := by
  rw [scanFiles, scanFiles_actions, List.flatMap_append, List.flatMap_append]
  rfl

/-- **When `launchpad.ini` need not be first.** The scan is that of the comment
exactly when no file sorted before `launchpad.ini` gives a setting another value
than it, unless a file after it gives the setting, and the actions of the files
before and of `launchpad.ini` repeat one list. -/
theorem scanDirectory_eq_prescribed_iff :
    scanDirectory directoryPath dir = prescribedScan directoryPath dir ↔
      (∀ setting, Layers.Undisputed (fun path => given (dir.read path)) (filesBase directoryPath dir)
        (filesBefore directoryPath dir) (filesAfter directoryPath dir) setting) ∧
      Layers.Repeats (actionsOf dir (filesBefore directoryPath dir))
        (actionsOf dir (filesBase directoryPath dir)) := by
  rw [scanDirectory_eq, prescribedScan_eq, scannedConfig_eq_iff]
  apply and_congr
  · exact forall_congr' fun setting => Layers.get_exchange_iff
      (fun result : ScannedConfig => result.settings.get)
      (fun result path setting => get_scanFile result (dir.read path) setting) _ _ _ {} setting
  · rw [scanFiles_append_actions, scanFiles_append_actions, ← List.append_assoc, ← List.append_assoc,
      List.append_left_inj]
    exact Layers.append_comm_iff

/-- `fbreader.ini` and `launchpad.ini` give the interval and bind a key differently. -/
def conflicting : Directory where
  names := ["launchpad.ini".toList, "fbreader.ini".toList]
  read path :=
    if path = "/launchpad.ini".toList then
      some "[Settings]\nHotInterval = 700\n[Actions]\nR = !sync\n".toList
    else some "[Settings]\nHotInterval = 500\n[Actions]\nR = !reboot\n".toList

/-- What `launchpad.ini` gives is not overridden, and its action is not the first. -/
theorem not_prescribed_conflicting : "launchpad.ini".toList ∈ conflicting.names ∧
    scanDirectory "/".toList conflicting ≠ prescribedScan "/".toList conflicting := by
  refine ⟨List.mem_cons_self, fun h => ?_⟩
  have hne : (scanDirectory "/".toList conflicting).settings.hotInterval ≠
      (prescribedScan "/".toList conflicting).settings.hotInterval := by decide +kernel
  exact hne (congrArg (fun result => result.settings.hotInterval) h)

end ConfigScanner
end Launchpad
