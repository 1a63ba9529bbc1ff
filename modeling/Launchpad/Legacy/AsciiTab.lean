/-
# Typing in the legacy program

The tables of `src/asciitab.c` have for each of the 128 characters the key that
types it and whether it is typed with Shift. `char_send_mode` returns the key where
it should return the mode, so no call of `send_key` that `send_ascii_string` makes
has the mode of its row (`sendsRight_iff`). Most of these calls are still written
as they should be, since `send_key` takes any mode but 0 to 2 for `send`: wrong are
the shifted characters, and the two whose key is 1 or 2 (`writesRight_iff`).
-/
import Launchpad.Legacy.SendKeys

namespace Launchpad
namespace Legacy

open KeyCodes

/-! ### The tables -/

/-- `KEY_` codes of the characters that are not on a Kindle keypad. -/
abbrev keyEsc : RawKeyCode := 1
abbrev keyMinus : RawKeyCode := 12
abbrev keyEqual : RawKeyCode := 13
abbrev keyBackspace : RawKeyCode := 14
abbrev keyTab : RawKeyCode := 15
abbrev keyLeftBrace : RawKeyCode := 26
abbrev keyRightBrace : RawKeyCode := 27
abbrev keySemicolon : RawKeyCode := 39
abbrev keyApostrophe : RawKeyCode := 40
abbrev keyGrave : RawKeyCode := 41
abbrev keyBackslash : RawKeyCode := 43
abbrev keyComma : RawKeyCode := 51

/-- The key and the mode of every character, the same in `kdxg_asciitab` and
`k3_asciitab`; the steps to the symbol in a popup, in which these differ, are not
used for typing. -/
def asciitab : Vector (RawKeyCode × SendMode) 128 :=
  #v[(kpkeySpace, .normal), (kpkeySpace, .normal), (kpkeySpace, .normal), (kpkeySpace, .normal),
   (kpkeySpace, .normal), (kpkeySpace, .normal), (kpkeySpace, .normal), (kpkeySpace, .normal),
   (keyBackspace, .normal), (keyTab, .normal), (kpkeySpace, .normal), (kpkeySpace, .normal),
   (kpkeySpace, .normal), (kpkeyEnter, .normal), (kpkeySpace, .normal), (kpkeySpace, .normal),
   (kpkeySpace, .normal), (kpkeySpace, .normal), (kpkeySpace, .normal), (kpkeySpace, .normal),
   (kpkeySpace, .normal), (kpkeySpace, .normal), (kpkeySpace, .normal), (kpkeySpace, .normal),
   (kpkeySpace, .normal), (kpkeySpace, .normal), (kpkeySpace, .normal), (keyEsc, .normal),
   (kpkeySpace, .normal), (kpkeySpace, .normal), (kpkeySpace, .normal), (kpkeySpace, .normal),
   (kpkeySpace, .normal), (kpkey1, .shift), (keyApostrophe, .shift), (kpkey3, .shift),
   (kpkey4, .shift), (kpkey5, .shift), (kpkey7, .shift), (keyApostrophe, .normal),
   (kpkey9, .shift), (kpkey0, .shift), (kpkey8, .shift), (keyEqual, .shift),
   (keyComma, .normal), (keyMinus, .normal), (kpkeyDot, .normal), (kpkeySlash, .normal),
   (kpkey0, .normal), (kpkey1, .normal), (kpkey2, .normal), (kpkey3, .normal),
   (kpkey4, .normal), (kpkey5, .normal), (kpkey6, .normal), (kpkey7, .normal),
   (kpkey8, .normal), (kpkey9, .normal), (keySemicolon, .shift), (keySemicolon, .normal),
   (keyComma, .shift), (keyEqual, .normal), (kpkeyDot, .shift), (kpkeySlash, .shift),
   (kpkey2, .shift), (kpkeyA, .shift), (kpkeyB, .shift), (kpkeyC, .shift),
   (kpkeyD, .shift), (kpkeyE, .shift), (kpkeyF, .shift), (kpkeyG, .shift),
   (kpkeyH, .shift), (kpkeyI, .shift), (kpkeyJ, .shift), (kpkeyK, .shift),
   (kpkeyL, .shift), (kpkeyM, .shift), (kpkeyN, .shift), (kpkeyO, .shift),
   (kpkeyP, .shift), (kpkeyQ, .shift), (kpkeyR, .shift), (kpkeyS, .shift),
   (kpkeyT, .shift), (kpkeyU, .shift), (kpkeyV, .shift), (kpkeyW, .shift),
   (kpkeyX, .shift), (kpkeyY, .shift), (kpkeyZ, .shift), (keyLeftBrace, .normal),
   (keyBackslash, .normal), (keyRightBrace, .normal), (kpkey6, .shift), (keyMinus, .shift),
   (keyGrave, .normal), (kpkeyA, .normal), (kpkeyB, .normal), (kpkeyC, .normal),
   (kpkeyD, .normal), (kpkeyE, .normal), (kpkeyF, .normal), (kpkeyG, .normal),
   (kpkeyH, .normal), (kpkeyI, .normal), (kpkeyJ, .normal), (kpkeyK, .normal),
   (kpkeyL, .normal), (kpkeyM, .normal), (kpkeyN, .normal), (kpkeyO, .normal),
   (kpkeyP, .normal), (kpkeyQ, .normal), (kpkeyR, .normal), (kpkeyS, .normal),
   (kpkeyT, .normal), (kpkeyU, .normal), (kpkeyV, .normal), (kpkeyW, .normal),
   (kpkeyX, .normal), (kpkeyY, .normal), (kpkeyZ, .normal), (keyLeftBrace, .shift),
   (keyBackslash, .shift), (keyRightBrace, .shift), (keyGrave, .shift), (kpkeyDel, .normal)]

def kdxgAsciitab : Vector (RawKeyCode × SendMode) 128 := asciitab

def k3Asciitab : Vector (RawKeyCode × SendMode) 128 := asciitab

/-- The row of a character, of which seven bits count. -/
def asciiRow (isThisKindle3 : Bool) (c : Char) : RawKeyCode × SendMode :=
  if isThisKindle3 then k3Asciitab[c.toNat % 128] else kdxgAsciitab[c.toNat % 128]

def charKeypadCode (isThisKindle3 : Bool) (c : Char) : RawKeyCode := (asciiRow isThisKindle3 c).1

/-- It returns the `code` of the row, not its `sendmode`. -/
def charSendMode (isThisKindle3 : Bool) (c : Char) : ℤ := (asciiRow isThisKindle3 c).1.toInt

/-! ### Typing -/

/-- `SENDMODE_NORMAL`, `SENDMODE_SHIFT` and `SENDMODE_ALT`. -/
def sendmodeNumber : SendMode → ℤ
  | .normal => 0
  | .shift => 1
  | .alt => 2

/-- The command `send_key` takes for a mode: one out of range is sent normally. -/
def sendmodeOf (mode : ℤ) : SendMode :=
  if mode = 1 then .shift else if mode = 2 then .alt else .normal

/-- The program on one of the models. -/
def KeySender.ofModel (opened : ProcFile → Bool) (isThisKindle3 : Bool) : KeySender where
  opened := opened
  charKeypadCode := Legacy.charKeypadCode isThisKindle3
  charSendMode := fun c => sendmodeOf (Legacy.charSendMode isThisKindle3 c)

open KeySender (ascii)

/-- The calls of `send_key` that `send_ascii_string` makes. -/
def sendAsciiCalls (isThisKindle3 : Bool) : Str → List (RawKeyCode × ℤ)
  | [] => []
  | [c] => [(charKeypadCode isThisKindle3 (ascii c), charSendMode isThisKindle3 (ascii c))]
  | c :: d :: rest =>
    if ascii c = '\\' then
      (charKeypadCode isThisKindle3 (ascii d), charSendMode isThisKindle3 (ascii d)) ::
        sendAsciiCalls isThisKindle3 rest
    else
      (charKeypadCode isThisKindle3 (ascii c), charSendMode isThisKindle3 (ascii c)) ::
        sendAsciiCalls isThisKindle3 (d :: rest)

/-- The characters to be typed: a backslash before another one is dropped, and that
one taken as it is. -/
def typedChars : Str → List Char
  | [] => []
  | [c] => [ascii c]
  | c :: d :: rest =>
    if ascii c = '\\' then ascii d :: typedChars rest else ascii c :: typedChars (d :: rest)

/-- For every character there is one call, with the key and the mode of its row. -/
def SendsRight (isThisKindle3 : Bool) (text : Str) : Prop :=
  sendAsciiCalls isThisKindle3 text = (typedChars text).map fun c =>
    ((asciiRow isThisKindle3 c).1, sendmodeNumber (asciiRow isThisKindle3 c).2)

/-- What is written is what the calls with the key and the mode of each row write. -/
def WritesRight (opened : ProcFile → Bool) (isThisKindle3 : Bool) (text : Str) : Prop :=
  (KeySender.ofModel opened isThisKindle3).sendAsciiString text = (typedChars text).flatMap fun c =>
    (KeySender.ofModel opened isThisKindle3).sendKey (asciiRow isThisKindle3 c).1
      (asciiRow isThisKindle3 c).2

variable {opened : ProcFile → Bool} {isThisKindle3 : Bool} {text : Str}

theorem sendAsciiCalls_eq (isThisKindle3 : Bool) (text : Str) :
    sendAsciiCalls isThisKindle3 text = (typedChars text).map fun c =>
      (charKeypadCode isThisKindle3 c, charSendMode isThisKindle3 c) := by
  fun_induction typedChars text with
  | case1 => rfl
  | case2 c => rfl
  | case3 c d rest hc ih => rw [sendAsciiCalls, if_pos hc, ih, List.map_cons]
  | case4 c d rest hc ih => rw [sendAsciiCalls, if_neg hc, ih, List.map_cons]

theorem sendAsciiString_eq (s : KeySender) (text : Str) :
    s.sendAsciiString text = (typedChars text).flatMap s.sendChar := by
  fun_induction typedChars text with
  | case1 => rfl
  | case2 c => simp [KeySender.sendAsciiString]
  | case3 c d rest hc ih => rw [KeySender.sendAsciiString, if_pos hc, ih, List.flatMap_cons]
  | case4 c d rest hc ih => rw [KeySender.sendAsciiString, if_neg hc, ih, List.flatMap_cons]

/-- What is written is what the calls write. -/
theorem sendAsciiString_calls (opened : ProcFile → Bool) (isThisKindle3 : Bool) (text : Str) :
    (KeySender.ofModel opened isThisKindle3).sendAsciiString text =
      (sendAsciiCalls isThisKindle3 text).flatMap fun call =>
        (KeySender.ofModel opened isThisKindle3).sendKey call.1 (sendmodeOf call.2) := by
  rw [sendAsciiString_eq, sendAsciiCalls_eq, List.flatMap_map]
  rfl

theorem typedChars_eq_nil_iff : typedChars text = [] ↔ text = [] := by
  fun_cases typedChars text <;> simp

/-! ### The rows -/

theorem asciiRow_eq (isThisKindle3 : Bool) (c : Char) :
    asciiRow isThisKindle3 c = asciitab[c.toNat % 128] := by
  unfold asciiRow kdxgAsciitab k3Asciitab
  split <;> rfl

/-- A property of all rows. -/
theorem forall_row {P : RawKeyCode × SendMode → Prop} (h : ∀ row ∈ asciitab.toList, P row)
    (isThisKindle3 : Bool) (c : Char) : P (asciiRow isThisKindle3 c) := by
  rw [asciiRow_eq]
  exact h _ (Vector.mem_toList_iff.mpr (Vector.getElem_mem _))

/-- No key has the number of its mode. -/
theorem code_ne_mode (isThisKindle3 : Bool) (c : Char) :
    (asciiRow isThisKindle3 c).1.toInt ≠ sendmodeNumber (asciiRow isThisKindle3 c).2 :=
  forall_row (P := fun row => row.1.toInt ≠ sendmodeNumber row.2) (by decide +kernel) isThisKindle3 c

/-- A key that is sent in the mode of its row all the same. -/
theorem sendmodeOf_code (isThisKindle3 : Bool) (c : Char) :
    sendmodeOf (asciiRow isThisKindle3 c).1.toInt = (asciiRow isThisKindle3 c).2 ↔
      (asciiRow isThisKindle3 c).2 = .normal ∧ (asciiRow isThisKindle3 c).1 ≠ keyEsc ∧
        (asciiRow isThisKindle3 c).1 ≠ kpkey1 :=
  forall_row (P := fun row => sendmodeOf row.1.toInt = row.2 ↔
    row.2 = .normal ∧ row.1 ≠ keyEsc ∧ row.1 ≠ kpkey1) (by decide +kernel) isThisKindle3 c

theorem not_fiveway (isThisKindle3 : Bool) (c : Char) :
    isFivewayName (asciiRow isThisKindle3 c).1 = false :=
  forall_row (P := fun row => isFivewayName row.1 = false) (by decide +kernel) isThisKindle3 c

/-! ### The calls and the lines -/

theorem sendsRight_iff (isThisKindle3 : Bool) (text : Str) :
    SendsRight isThisKindle3 text ↔ text = [] := by
  rw [SendsRight, sendAsciiCalls_eq, List.map_inj_left, ← typedChars_eq_nil_iff]
  constructor
  · intro hall
    rw [List.eq_nil_iff_forall_not_mem]
    exact fun c hc => code_ne_mode isThisKindle3 c (Prod.mk.inj (hall c hc)).2
  · intro hnil
    rw [hnil]
    exact List.forall_mem_nil _

/-- The line for a character, if the keypad file is open. -/
theorem sendKey_row (opened : ProcFile → Bool) (isThisKindle3 : Bool) (c : Char) (mode : SendMode) :
    (KeySender.ofModel opened isThisKindle3).sendKey (asciiRow isThisKindle3 c).1 mode =
      writeTo opened .keypad (mode.command ++ " ".toList ++
        decimal (asciiRow isThisKindle3 c).1 ++ "\n".toList) := by
  rw [KeySender.sendKey, not_fiveway]
  rfl

/-- The modes have different commands. -/
theorem line_inj {mode mode' : SendMode} {code : RawKeyCode}
    (h : mode.command ++ " ".toList ++ decimal code ++ "\n".toList =
      mode'.command ++ " ".toList ++ decimal code ++ "\n".toList) : mode = mode' := by
  simp only [List.append_assoc] at h
  have hcommand : mode.command = mode'.command := List.append_cancel_right h
  revert hcommand
  cases mode <;> cases mode' <;> decide

theorem writesRight_iff (opened : ProcFile → Bool) (isThisKindle3 : Bool) (text : Str) :
    WritesRight opened isThisKindle3 text ↔ opened .keypad = false ∨
      ∀ c ∈ typedChars text, (asciiRow isThisKindle3 c).2 = .normal ∧
        (asciiRow isThisKindle3 c).1 ≠ keyEsc ∧ (asciiRow isThisKindle3 c).1 ≠ kpkey1 := by
  have hchar : ∀ c, (KeySender.ofModel opened isThisKindle3).sendChar c =
      (KeySender.ofModel opened isThisKindle3).sendKey (asciiRow isThisKindle3 c).1
        (sendmodeOf (asciiRow isThisKindle3 c).1.toInt) := fun c => rfl
  rw [WritesRight, sendAsciiString_eq]
  simp only [funext hchar, sendKey_row]
  cases hopen : opened .keypad with
  | false => simp [writeTo, hopen]
  | true =>
    simp only [writeTo, hopen, ↓reduceIte, ← List.map_eq_flatMap,
      Bool.true_eq_false, false_or]
    rw [List.map_inj_left]
    refine forall₂_congr fun c _ => ?_
    rw [← sendmodeOf_code]
    constructor
    · exact fun hline => line_inj (congrArg ProcWrite.line hline)
    · exact fun hmode => by rw [hmode]

/-- **When typing uses the right modifier.** No call but those for the empty string
has the mode of its row; what is written is right exactly when the keypad file is
not open, or every character typed is one without Shift and neither `1` nor Escape. -/
theorem typing_right_iff (opened : ProcFile → Bool) (isThisKindle3 : Bool) (text : Str) :
    (SendsRight isThisKindle3 text ↔ text = []) ∧
      (WritesRight opened isThisKindle3 text ↔ opened .keypad = false ∨
        ∀ c ∈ typedChars text, (asciiRow isThisKindle3 c).2 = .normal ∧
          (asciiRow isThisKindle3 c).1 ≠ keyEsc ∧ (asciiRow isThisKindle3 c).1 ≠ kpkey1) :=
  ⟨sendsRight_iff isThisKindle3 text, writesRight_iff opened isThisKindle3 text⟩

/-- `A` is written without Shift, and `1` with Alt. -/
theorem not_typing_right_a :
    ¬ SendsRight false "A".toList ∧ ¬ WritesRight (fun _ => true) false "A".toList ∧
      (KeySender.ofModel (fun _ => true) false).sendAsciiString "A1".toList =
        [⟨.keypad, "send 30\n".toList⟩, ⟨.keypad, "sendalt 2\n".toList⟩] := by
  refine ⟨?_, ?_, ?_⟩
  · unfold SendsRight
    decide +kernel
  · unfold WritesRight
    decide +kernel
  · decide +kernel

end Legacy
end Launchpad
