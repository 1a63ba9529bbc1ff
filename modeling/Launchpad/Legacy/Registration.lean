/-
# The legacy bindings

How `src/launchpad.c` makes its actions of the `[Actions]` entries, and what a
sequence is bound to: the first entry whose first eight keys are the sequence and
whose command is more than a prefix, and only then the screenshot
(`legacyFound_eq`). The new registry has the screenshot before all entries, and then
the first whose keys are exactly the sequence (`newFound_eq`). So a sequence has the
same action in both under a condition on the entries (`bindings_keep`).
-/
import Launchpad.Bindings
import Launchpad.KeyNames
import Launchpad.Legacy.IniTables
import Launchpad.Legacy.Actions

namespace Launchpad
namespace Legacy

open KeyCodes

/-! ### Registration -/

/-- `default_input_keys`: to its last row but the Kindle 3 keys, the table is that
of `populate_defaults`. -/
def defaultInputKeys : List (RawKeyCode × Str) :=
  KeyTable.defaultKeys ++
  [(k3keyAa, "k3_aA".toList), (k3keySym, "k3_Sym".toList), (k3keyHome, "k3_Home".toList),
   (k3keyBack, "k3_Back".toList), (k3keyPgfwd, "k3_>".toList), (k3keyLpgbck, "lk3_<".toList),
   (k3keyLpgfwd, "lk3_>".toList), (k3keyVplus, "VPlus".toList), (k3keyVminus, "VMinus".toList),
   (k3keyFwUp, "k3_FW_Up".toList), (k3keyFwDown, "k3_FW_Down".toList),
   (k3keyFwPress, "k3_FW_Press".toList)]

/-- `find_input_key_code` with the default keys; -1 is `none`. -/
def findInputKeyCode (pkey : Str) : Option RawKeyCode :=
  (defaultInputKeys.find? fun k => strcasecmp k.2 pkey).map Prod.fst

/-- The codes of the first eight words; none if one of them is unknown. -/
def parseActionSequence (pbuf : Str) : List RawKeyCode :=
  match ((Words.words (· = ' ') pbuf).take maxSeq).mapM findInputKeyCode with
  | some codes => codes
  | none => []

/-- The `switch` on the first character: the type and the rest. -/
def commandType : Str → ActionType × Str
  | '!' :: p => (.shellCommand, p)
  | '#' :: p => (.kindleKeys, p)
  | '@' :: p => (.kindleScript, p)
  | '\\' :: p => (.sendKeys, p)
  | p => (.sendKeys, p)

/-- A script that is no absolute path is in the script directory. -/
def parseActionCommand (scriptDir pbuf : Str) : ActionType × Str :=
  let (type, p) := commandType pbuf
  if type = .kindleScript ∧ p.head? ≠ some '/' then (type, scriptDir ++ '/' :: p) else (type, p)

/-- One entry of `process_ini_file`'s loop over the section `Actions`. -/
def processAction (scriptDir : Str) (actions : List Action) (entry : IniEntry) : List Action :=
  let sequence := parseActionSequence entry.key
  if sequence = [] then actions
  else if actions.any (·.sequence = sequence) then actions
  else if entry.value = [] then actions
  else
    let (type, command) := parseActionCommand scriptDir entry.value
    if command = [] then actions else actions ++ [⟨type, sequence, command, entry.key.take 15⟩]

/-- The actions after all entries. -/
def registerActions (scriptDir : Str) (entries : List IniEntry) : List Action :=
  entries.foldl (processAction scriptDir) []

/-- What is executed, in the new program's terms. -/
def ActionType.payload : ActionType → Str → ActionPayload
  | .sendKeys, command => .sendKeys command
  | .shellCommand, command => .shell command
  | .kindleKeys, command => .kindleKeys command
  | .kindleScript, command => .script command

def FoundAction.payload : FoundAction → ActionPayload
  | .action a => a.type.payload a.command
  | .screenshot => .screenshot

/-! ### Key names -/

/-- The rows are the default keys, two of them twice. -/
theorem mem_defaultInputKeys (k : RawKeyCode × Str) :
    k ∈ defaultInputKeys ↔ k ∈ KeyTable.defaultKeys ++ KeyTable.aliasKeys := by
  have hsub : ∀ k ∈ defaultInputKeys, k ∈ KeyTable.defaultKeys ++ KeyTable.aliasKeys := by decide +kernel
  have hsup : ∀ k ∈ KeyTable.defaultKeys ++ KeyTable.aliasKeys, k ∈ defaultInputKeys := by decide +kernel
  exact ⟨hsub k, hsup k⟩

/-- Both programs know the same names. -/
theorem findInputKeyCode_eq (name : Str) : findInputKeyCode name = KeyTable.new.findCode name := by
  unfold findInputKeyCode
  cases hfind : defaultInputKeys.find? fun k => strcasecmp k.2 name with
  | some k =>
    have hsame : strcasecmp k.2 name = true := by simpa using List.find?_some hfind
    have hk := (mem_defaultInputKeys k).mp (List.mem_of_find?_eq_some hfind)
    rw [KeyTable.findCode_new hk ((strcasecmp_iff _ _).mp hsame).symm]
    rfl
  | none =>
    symm
    rw [Option.map_none, KeyTable.findCode_new_eq_none]
    rintro ⟨k, hk, hname⟩
    exact List.find?_eq_none.mp hfind k ((mem_defaultInputKeys k).mpr hk)
      ((strcasecmp_iff _ _).mpr hname.symm)

/-! ### The lookup -/

/-- The action an entry defines if no other has its sequence. -/
def actionOf (scriptDir : Str) (entry : IniEntry) : Option Action :=
  let sequence := parseActionSequence entry.key
  let (type, command) := parseActionCommand scriptDir entry.value
  if sequence = [] ∨ entry.value = [] ∨ command = [] then none
  else some ⟨type, sequence, command, entry.key.take 15⟩

theorem sequence_of_actionOf {scriptDir : Str} {entry : IniEntry} {a : Action}
    (h : actionOf scriptDir entry = some a) : a.sequence = parseActionSequence entry.key := by
  simp only [actionOf] at h
  split_ifs at h with hnone
  rw [← Option.some.inj h]

/-- An entry adds the action it defines unless its sequence has one. -/
theorem processAction_eq (scriptDir : Str) (actions : List Action) (entry : IniEntry) :
    processAction scriptDir actions entry =
      if actions.any (·.sequence = parseActionSequence entry.key) then actions
      else actions ++ (actionOf scriptDir entry).toList := by
  unfold processAction actionOf
  by_cases hsequence : parseActionSequence entry.key = []
  · simp [hsequence]
  · by_cases hdefined : actions.any (·.sequence = parseActionSequence entry.key) = true
    · simp only [if_neg hsequence, if_pos hdefined]
    · simp only [if_neg hdefined, hsequence, false_or]
      by_cases hvalue : entry.value = []
      · simp [hvalue]
      · by_cases hcommand : (parseActionCommand scriptDir entry.value).2 = []
        · simp [hvalue, hcommand]
        · simp [hvalue, hcommand]

theorem find?_processAction (scriptDir : Str) (actions : List Action) (entry : IniEntry)
    (s : List RawKeyCode) :
    (processAction scriptDir actions entry).find? (·.sequence = s) =
      (actions.find? (·.sequence = s)).or
        ((actionOf scriptDir entry).filter (·.sequence = s)) := by
  rw [processAction_eq]
  split_ifs with hdefined
  · obtain ⟨a, ha, hsequence⟩ := List.any_eq_true.mp hdefined
    by_cases hs : parseActionSequence entry.key = s
    · have hsome : (actions.find? (·.sequence = s)).isSome = true := by
        rw [List.find?_isSome]
        exact ⟨a, ha, hs ▸ hsequence⟩
      rw [Option.or_of_isSome hsome]
    · have hnone : (actionOf scriptDir entry).filter (·.sequence = s) = none := by
        rw [Option.filter_eq_none_iff]
        intro b hb heq
        exact hs ((sequence_of_actionOf hb).symm.trans (of_decide_eq_true heq))
      rw [hnone, Option.or_none]
  · rw [List.find?_append]
    congr 1
    cases actionOf scriptDir entry with
    | none => rfl
    | some a =>
      rw [Option.toList_some, List.find?_singleton]
      rfl

/-- A sequence has the action of the first entry that defines one. -/
theorem find?_registerActions (scriptDir : Str) (s : List RawKeyCode) :
    ∀ (entries : List IniEntry) (actions : List Action),
      (entries.foldl (processAction scriptDir) actions).find? (·.sequence = s) =
        (actions.find? (·.sequence = s)).or
          (entries.findSome? fun e => (actionOf scriptDir e).filter (·.sequence = s))
  | [], actions => by simp
  | entry :: entries, actions => by
    rw [List.foldl_cons, find?_registerActions scriptDir s entries, find?_processAction, Option.or_assoc,
      List.findSome?_cons]
    congr 1
    cases (actionOf scriptDir entry).filter (·.sequence = s) <;> rfl

/-! ### Bindings -/

/-- A configured script directory: not empty, and without a slash at its end. -/
structure ScriptDir where
  path : Str
  path_ne : path ≠ []
  noSlash : path.getLast? ≠ some '/'

/-- An entry that binds known keys, as long as the buffers allow. -/
structure Binding (dir : ScriptDir) where
  names : List Str
  command : Str
  names_ne : names ≠ []
  known : ∀ n ∈ names, (findInputKeyCode n).isSome = true
  command_ne : command ≠ []
  length_le : ([' '].intercalate names).length ≤ 255
  fits : (parseActionCommand dir.path command).2.length ≤ 255

/-- A command of more than a prefix; a script's is its directory at least. -/
def HasText (command : Str) : Prop := command ≠ "!".toList ∧ command ≠ "#".toList ∧ command ≠ "\\".toList

instance (command : Str) : Decidable (HasText command) := inferInstanceAs (Decidable (_ ∧ _))

namespace Binding

variable {dir : ScriptDir} (b : Binding dir)

def entry : IniEntry := ⟨[' '].intercalate b.names, b.command⟩

/-- The codes of its keys. -/
def codes : KeySequence := b.names.map fun n => (findInputKeyCode n).getD 0

/-- The action its command stands for: the kind by the prefix, a script in the
script directory. -/
def meaning : ActionPayload :=
  (parseActionCommand dir.path b.command).1.payload (parseActionCommand dir.path b.command).2

theorem isWord_names : ∀ n ∈ b.names, Words.IsWord isspace n := by
  intro n hn
  have hknown := b.known n hn
  rw [findInputKeyCode_eq] at hknown
  exact (plainNames_new n hknown).1

theorem mapM_codes {f : Str → Option RawKeyCode} {names : List Str}
    (h : ∀ n ∈ names, (f n).isSome = true) : names.mapM f = some (names.map fun n => (f n).getD 0) :=
  ActionParser.mapM_eq_some (ActionParser.forall₂_codes h)

theorem parseActionSequence_entry : parseActionSequence b.entry.key = b.codes.take maxSeq := by
  have hwords : Words.words (· = ' ') ([' '].intercalate b.names) = b.names := by
    apply Words.words_intercalate rfl
    intro n hn
    obtain ⟨hne, hspace⟩ := b.isWord_names n hn
    refine ⟨hne, fun c hc => decide_eq_false ?_⟩
    rintro rfl
    exact absurd (hspace ' ' hc) (by decide)
  have hmap : (b.names.take maxSeq).mapM findInputKeyCode = some (b.codes.take maxSeq) := by
    rw [mapM_codes fun n hn => b.known n (List.mem_of_mem_take hn), List.map_take]
    rfl
  rw [parseActionSequence, entry, hwords, hmap]

theorem codes_ne : b.codes ≠ [] := fun h => b.names_ne (List.map_eq_nil_iff.mp h)

theorem parseSequence_entry : ActionParser.parseSequence b.entry.key .new = some b.codes := by
  have hwords : Words.words isspace ([' '].intercalate b.names) = b.names :=
    Words.words_intercalate rfl b.names b.isWord_names
  have hmap : b.names.mapM KeyTable.new.findCode = some b.codes := by
    have hfind : KeyTable.new.findCode = findInputKeyCode := by
      funext n
      exact (findInputKeyCode_eq n).symm
    rw [hfind, mapM_codes b.known]
    rfl
  rw [ActionParser.parseSequence, entry, hwords, hmap]
  cases hcodes : b.codes with
  | nil => exact absurd hcodes b.codes_ne
  | cons code codes => rfl

/-! ### Commands -/

/-- A command without a prefix sends itself. -/
theorem commandType_other {c : Char} (hshell : c ≠ '!') (hkeys : c ≠ '#') (hscript : c ≠ '@')
    (hsend : c ≠ '\\') (p : Str) : commandType (c :: p) = (.sendKeys, c :: p) := by
  unfold commandType
  split <;> simp_all

theorem parseCommand_other {c : Char} (hshell : c ≠ '!') (hkeys : c ≠ '#') (hscript : c ≠ '@')
    (hsend : c ≠ '\\') (p name scriptDir : Str) :
    (ActionParser.parseCommand (c :: p) name scriptDir).payload = .sendKeys (c :: p) := by
  unfold ActionParser.parseCommand
  split <;> simp_all

/-- The path of a script that has a name is the same in both programs. -/
theorem scriptPath_eq (dir : ScriptDir) {p : Str} (hp : p ≠ []) :
    (parseActionCommand dir.path ('@' :: p)).2 = ActionParser.buildScriptPath p dir.path := by
  obtain ⟨c, p, rfl⟩ := List.exists_cons_of_ne_nil hp
  have hhead : (c :: p).head? = some c := rfl
  simp only [parseActionCommand, commandType, ActionParser.buildScriptPath, hhead, true_and]
  by_cases hc : c = '/'
  · rw [if_neg (by simp [hc]), if_pos (.inl hc)]
  · have hrelative : ¬ (c = '/' ∨ dir.path = []) := not_or.mpr ⟨hc, dir.path_ne⟩
    rw [if_pos (by simpa using hc), if_neg hrelative, if_neg dir.noSlash]
    simp

theorem scriptPath_ne (dir : ScriptDir) (p : Str) : (parseActionCommand dir.path ('@' :: p)).2 ≠ [] := by
  simp only [parseActionCommand, commandType, true_and]
  by_cases hp : p.head? ≠ some '/'
  · rw [if_pos hp]
    simp
  · rw [if_neg hp]
    rintro rfl
    exact hp (by simp)

/-- A command has a text for the legacy program exactly if it is more than a
prefix. -/
theorem hasText_iff : (parseActionCommand dir.path b.command).2 ≠ [] ↔ HasText b.command := by
  obtain ⟨c, p, hcommand⟩ := List.exists_cons_of_ne_nil b.command_ne
  rw [hcommand, HasText]
  by_cases hscript : c = '@'
  · rw [hscript]
    exact iff_of_true (scriptPath_ne dir p) ⟨by simp, by simp, by simp⟩
  · by_cases hmark : c = '!' ∨ c = '#' ∨ c = '\\'
    · rcases hmark with rfl | rfl | rfl <;> simp [parseActionCommand, commandType]
    · simp only [not_or] at hmark
      rw [parseActionCommand, commandType_other hmark.1 hmark.2.1 hscript hmark.2.2]
      simp [hmark]

/-- Both programs take a command for the same, but for a script without a name. -/
theorem payload_eq (name : Str) : (ActionParser.parseCommand b.command name dir.path).payload =
    if b.command = ['@'] then .script [] else b.meaning := by
  rw [meaning]
  obtain ⟨c, p, hcommand⟩ := List.exists_cons_of_ne_nil b.command_ne
  rw [hcommand]
  by_cases hscript : c = '@'
  · rw [hscript]
    by_cases hp : p = []
    · rw [hp]
      rfl
    · have htype : (parseActionCommand dir.path ('@' :: p)).1 = .kindleScript := by
        simp only [parseActionCommand, commandType]
        split_ifs <;> rfl
      rw [if_neg (by simpa using hp), htype, scriptPath_eq dir hp]
      rfl
  · rw [if_neg (by simp [hscript])]
    by_cases hmark : c = '!' ∨ c = '#' ∨ c = '\\'
    · rcases hmark with rfl | rfl | rfl <;>
        simp [ActionParser.parseCommand, parseActionCommand, commandType, ActionType.payload]
    · simp only [not_or] at hmark
      rw [parseCommand_other hmark.1 hmark.2.1 hscript hmark.2.2, parseActionCommand,
        commandType_other hmark.1 hmark.2.1 hscript hmark.2.2]
      simp [ActionType.payload]

theorem meaning_ne_screenshot : b.meaning ≠ .screenshot := by
  rw [meaning]
  cases (parseActionCommand dir.path b.command).1 <;> exact ActionPayload.noConfusion

/-- A command with a text is no script without a name. -/
theorem meaning_ne_noScript (htext : HasText b.command) : b.meaning ≠ .script [] := by
  have hne := b.hasText_iff.mpr htext
  rw [meaning]
  cases (parseActionCommand dir.path b.command).1 with
  | kindleScript => exact fun h => hne (ActionPayload.script.inj h)
  | _ => exact ActionPayload.noConfusion

/-- The action it defines. -/
def action : Action :=
  ⟨(parseActionCommand dir.path b.command).1, b.codes.take maxSeq,
    (parseActionCommand dir.path b.command).2, b.entry.key.take 15⟩

theorem actionOf_entry : actionOf dir.path b.entry = if HasText b.command then some b.action else none := by
  have hcodes : b.codes.take maxSeq ≠ [] := by
    rw [Ne, List.take_eq_nil_iff]
    exact not_or.mpr ⟨by decide, b.codes_ne⟩
  have hcommand : b.entry.value = b.command := rfl
  simp only [actionOf, parseActionSequence_entry, hcommand, hcodes, b.command_ne, false_or]
  by_cases htext : HasText b.command
  · rw [if_neg (b.hasText_iff.mpr htext), if_pos htext, action]
  · rw [if_pos (not_not.mp fun hne => htext (b.hasText_iff.mp hne)), if_neg htext]

end Binding

/-! ### Both registries -/

section Both

variable {dir : ScriptDir} (bs : List (Binding dir)) (s : KeySequence)

/-- What the legacy program does for a sequence. -/
def legacyFound : Option ActionPayload :=
  (findSequenceAction (registerActions dir.path (bs.map Binding.entry)) s).map FoundAction.payload

/-- The registry of the new program after `load_configuration`. -/
def newRegistry : ActionRegistry :=
  (bs.map Binding.entry).foldl (Application.registerEntry .new dir.path) ({} : ActionRegistry).clear

/-- What the new program does. -/
def newFound : Option ActionPayload := ((newRegistry bs).findAction s).map Action.payload

/-- The first binding of the sequence, its keys cut to eight, that has a text. -/
def firstCut : Option (Binding dir) :=
  bs.find? fun b => b.codes.take maxSeq = s ∧ HasText b.command

/-- The first binding of exactly the sequence. -/
def firstExact : Option (Binding dir) := bs.find? fun b => b.codes = s

/-- A sequence keeps its action: no binding of the reserved one has a text; the first
binding of another is no script without a name and means what the first one with a
text does of those cut to the sequence, or there is neither. -/
def KeepsAction : Prop :=
  if s = [kpkeyShift, kpkeyShift] then ∀ b ∈ bs, b.codes = s → ¬ HasText b.command
  else match firstExact bs s, firstCut bs s with
    | none, none => True
    | some b, some c => b.command ≠ ['@'] ∧ c.meaning = b.meaning
    | _, _ => False

theorem findSome?_actions : (bs.findSome? fun b => (actionOf dir.path b.entry).filter (·.sequence = s)) =
    (firstCut bs s).map Binding.action := by
  induction bs with
  | nil => rfl
  | cons b bs ih =>
    have hfilter : (actionOf dir.path b.entry).filter (·.sequence = s) =
        if b.codes.take maxSeq = s ∧ HasText b.command then some b.action else none := by
      rw [b.actionOf_entry]
      by_cases htext : HasText b.command
      · simp [htext, Option.filter, Binding.action]
      · simp [htext]
    rw [List.findSome?_cons, hfilter, firstCut]
    split_ifs with hcut
    · rw [List.find?_cons_of_pos (by simpa using hcut)]
      rfl
    · rw [List.find?_cons_of_neg (by simpa using hcut)]
      exact ih

theorem legacyFound_eq : legacyFound bs s = ((firstCut bs s).map Binding.meaning).or
    (if s = [kpkeyShift, kpkeyShift] then some .screenshot else none) := by
  have hfind : (registerActions dir.path (bs.map Binding.entry)).find? (·.sequence = s) =
      (firstCut bs s).map Binding.action := by
    rw [registerActions, find?_registerActions, List.find?_nil, Option.none_or, List.findSome?_map,
      ← findSome?_actions]
    rfl
  rw [legacyFound, findSequenceAction, hfind]
  cases firstCut bs s with
  | some b => rfl
  | none =>
    rw [Option.map_none, Option.map_none, Option.none_or]
    split_ifs <;> rfl

theorem newFound_eq : newFound bs s =
    if s = [kpkeyShift, kpkeyShift] then some .screenshot
    else (firstExact bs s).map fun b =>
      if b.command = ['@'] then .script [] else b.meaning := by
  have hscreenshot : (newRegistry bs).screenshotSequence = [kpkeyShift, kpkeyShift] :=
    Application.registerEntries_screenshotSequence _ _ _ _
  rw [newFound, ActionRegistry.findAction, hscreenshot]
  split_ifs with hs
  · rfl
  · have hfirst : (bs.map Binding.entry).find? (fun e => ActionParser.parseSequence e.key .new = some s) =
        (firstExact bs s).map Binding.entry := by
      rw [List.find?_map, firstExact]
      congr 2
      funext b
      simp [b.parseSequence_entry]
    rw [newRegistry, Application.lookup_registerEntries, ActionRegistry.lookup_clear, Option.none_or, hfirst,
      Option.map_map, Option.map_map]
    congr 1
    funext b
    exact b.payload_eq b.entry.key

/-- A sequence of fewer than eight keys is cut from no longer one. -/
theorem take_eq_iff {l s : KeySequence} (hs : s.length < maxSeq) : l.take maxSeq = s ↔ l = s := by
  constructor
  · intro htake
    have hlength := congrArg List.length htake
    rw [List.length_take] at hlength
    rw [← htake, List.take_of_length_le (by omega)]
  · rintro rfl
    exact List.take_of_length_le hs.le

theorem firstCut_reserved : firstCut bs [kpkeyShift, kpkeyShift] = none ↔
    ∀ b ∈ bs, b.codes = [kpkeyShift, kpkeyShift] → ¬ HasText b.command := by
  rw [firstCut, List.find?_eq_none]
  apply forall₂_congr
  intro b _
  rw [decide_eq_true_iff, take_eq_iff (by decide), not_and]

/-- A sequence has the same action in both programs exactly if it keeps it. -/
theorem legacyFound_eq_iff : legacyFound bs s = newFound bs s ↔ KeepsAction bs s := by
  rw [legacyFound_eq, newFound_eq, KeepsAction]
  by_cases hs : s = [kpkeyShift, kpkeyShift]
  · rw [if_pos hs, if_pos hs, if_pos hs, hs, ← firstCut_reserved]
    cases firstCut bs [kpkeyShift, kpkeyShift] with
    | none => exact iff_of_true rfl rfl
    | some b =>
      refine iff_of_false (fun heq => ?_) (Option.some_ne_none b)
      exact b.meaning_ne_screenshot (Option.some.inj heq)
  · rw [if_neg hs, if_neg hs, if_neg hs, Option.or_none]
    cases firstExact bs s with
    | none =>
      cases firstCut bs s with
      | none => exact iff_of_true rfl trivial
      | some c => exact iff_of_false (Option.some_ne_none _) id
    | some b =>
      cases hcut : firstCut bs s with
      | none => exact iff_of_false (Option.some_ne_none _).symm id
      | some c =>
        have htext : HasText c.command := by
          have hfound := List.find?_some hcut
          simp only [Bool.decide_and, Bool.and_eq_true, decide_eq_true_eq] at hfound
          exact hfound.2
        rw [Option.map_some, Option.map_some, Option.some_inj]
        by_cases hscript : b.command = ['@']
        · rw [if_pos hscript]
          exact iff_of_false (c.meaning_ne_noScript htext) fun hboth => hboth.1 hscript
        · rw [if_neg hscript]
          exact (and_iff_right hscript).symm

/-- **Legacy bindings in the new program.** The screenshot is not overridden, and a
sequence has the same action in both programs exactly if it keeps it. -/
theorem bindings_keep : newFound bs [kpkeyShift, kpkeyShift] = some .screenshot ∧
    ∀ s, legacyFound bs s = newFound bs s ↔ KeepsAction bs s := by
  refine ⟨?_, legacyFound_eq_iff bs⟩
  rw [newFound_eq, if_pos rfl]

end Both

/-- The script directory of `launchpad.ini`. -/
def scripts : ScriptDir := ⟨"./scripts".toList, by decide, by decide⟩

/-- `Shift Shift = !reboot` takes the place of the screenshot in the legacy program
only. -/
theorem not_bindings_keep_reserved : ∃ bs : List (Binding scripts),
    bs.map Binding.entry = [⟨"Shift Shift".toList, "!reboot".toList⟩] ∧
      legacyFound bs [kpkeyShift, kpkeyShift] = some (.shell "reboot".toList) ∧
      legacyFound bs [kpkeyShift, kpkeyShift] ≠ newFound bs [kpkeyShift, kpkeyShift] := by
  refine ⟨[⟨["Shift".toList, "Shift".toList], "!reboot".toList, ?_, ?_, ?_, ?_, ?_⟩], ?_, ?_, ?_⟩ <;>
    decide +kernel

end Legacy
end Launchpad
