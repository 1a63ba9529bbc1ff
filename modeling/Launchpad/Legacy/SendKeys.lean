/-
# Sending keys in the legacy program

`process_sendkeys_command` of `src/launchpad.c`, which reads a command token by
token, and `send_key` and `send_ascii_string` of `src/main.c`, which write the
keys to the device files. The command is copied to a buffer of `MAXPATH`
characters; what goes past it is undefined, and so `none`.
-/
import Launchpad.KeyInjector
import Launchpad.KeyNames
import Launchpad.Legacy.Registration

namespace Launchpad
namespace Legacy

open KeyCodes

def maxPath : ℕ := 256

def maxCode : ℤ := 255

/-- What the program sends keys with: the files `main` could open, and the tables
of `src/asciitab.c`. -/
structure KeySender where
  opened : ProcFile → Bool
  charKeypadCode : Char → RawKeyCode
  charSendMode : Char → SendMode

/-- `input_key_name`: the last row of a code is the one its index is left at. -/
def inputKeyName (code : RawKeyCode) : Option Str :=
  if 0 ≤ code.toInt ∧ code.toInt ≤ maxCode then
    (defaultInputKeys.reverse.find? fun k => k.1 = code).map Prod.snd
  else none

/-- `strncasecmp(name, start, n) == 0`, where `start` has length `n`. -/
def startsWith (name start : Str) : Bool := strcasecmp (name.take start.length) start

/-- The test of `send_key`: the key has the name of a five-way key. -/
def isFivewayName (code : RawKeyCode) : Bool :=
  (inputKeyName code).any fun name => startsWith name "FW_".toList || startsWith name "k3_FW_".toList

/-- The conversion `%d`. -/
def decimal (code : RawKeyCode) : Str := (toString code.toInt).toList

namespace KeySender

variable (s : KeySender)

def sendKey (code : RawKeyCode) (mode : SendMode) : List ProcWrite :=
  if isFivewayName code then
    writeTo s.opened .fiveway ("send ".toList ++ decimal code ++ "\n".toList)
  else writeTo s.opened .keypad (mode.command ++ " ".toList ++ decimal code ++ "\n".toList)

/-- The seven bits of a character that are looked up. -/
def ascii (c : Char) : Char := Char.ofNat (c.toNat % 128)

def sendChar (c : Char) : List ProcWrite := s.sendKey (s.charKeypadCode c) (s.charSendMode c)

/-- `send_ascii_string`: a backslash stands before a character to be sent as it is. -/
def sendAsciiString : Str → List ProcWrite
  | [] => []
  | [c] => s.sendChar (ascii c)
  | c :: d :: rest =>
    if ascii c = '\\' then s.sendChar (ascii d) ++ sendAsciiString rest
    else s.sendChar (ascii c) ++ sendAsciiString (d :: rest)

end KeySender

/-! ### The scanner -/

/-- The scan to a closing quote, with `room` characters of the buffer left from
the end of the text on: the string, and the rest after it. A backslash at the end
takes the scan one character further. -/
def scanQuoted (room : ℕ) : Str → Option (Str × Str)
  | [] => some ([], [])
  | '"' :: rest => some ([], rest)
  | ['\\'] => if 2 ≤ room then some (['\\'], []) else none
  | '\\' :: c :: rest => (scanQuoted room rest).map fun r => ('\\' :: c :: r.1, r.2)
  | c :: rest => (scanQuoted room rest).map fun r => (c :: r.1, r.2)

/-- `char` is unsigned on the device. -/
def isBlank (c : Char) : Bool := c ≤ ' '

/-- A token that is not quoted. -/
def sendToken (s : KeySender) (token : Str) : List ProcWrite :=
  match findInputKeyCode token with
  | some code => s.sendKey code .normal
  | none => s.sendAsciiString token

theorem length_scanQuoted (room : ℕ) : ∀ (text : Str) {r : Str × Str},
    scanQuoted room text = some r → r.2.length ≤ text.length := by
  intro text
  fun_induction scanQuoted room text with
  | case1 =>
    intro r h
    rw [← Option.some.inj h]
  | case2 rest =>
    intro r h
    rw [← Option.some.inj h]
    exact Nat.le_succ _
  | case3 =>
    intro r h
    rw [← Option.some.inj h]
    exact Nat.zero_le _
  | case4 => nofun
  | case5 c rest ih =>
    intro r h
    obtain ⟨r', hr', rfl⟩ := Option.map_eq_some_iff.mp h
    have hle := ih hr'
    simp only [List.length_cons]
    omega
  | case6 c rest _ _ _ ih =>
    intro r h
    obtain ⟨r', hr', rfl⟩ := Option.map_eq_some_iff.mp h
    have hle := ih hr'
    simp only [List.length_cons]
    omega

/-- The loop of `process_sendkeys_command` on what is left of the text. -/
def sendkeysLoop (s : KeySender) (room : ℕ) : Str → Option (List ProcWrite)
  | [] => some []
  | c :: rest =>
    if isBlank c then sendkeysLoop s room rest
    else if c = '"' then
      match _h : scanQuoted room rest with
      | none => none
      | some (token, rest') => (sendkeysLoop s room rest').map (s.sendAsciiString token ++ ·)
    else
      (sendkeysLoop s room (rest.dropWhile fun d => !isBlank d).tail).map
        (sendToken s (c :: rest.takeWhile fun d => !isBlank d) ++ ·)
termination_by text => text.length
decreasing_by
  · exact Nat.lt_succ_self _
  · exact Nat.lt_succ_of_le (length_scanQuoted room rest _h)
  · have hle := List.length_dropWhile_le (fun d => !isBlank d) rest
    simp only [List.length_tail, List.length_cons]
    omega

/-- `process_sendkeys_command`. -/
def processSendkeysCommand (s : KeySender) (p : Str) : Option (List ProcWrite) :=
  if p.length < maxPath then sendkeysLoop s (maxPath - p.length) p else none

/-! ### Tokens without quotes -/

/-- Without quotes, the scanner sends the words between blanks. -/
theorem sendkeysLoop_eq (s : KeySender) (room : ℕ) (text : Str) (hquote : '"' ∉ text) :
    sendkeysLoop s room text = some ((Words.words isBlank text).flatMap (sendToken s)) := by
  fun_induction sendkeysLoop s room text with
  | case1 => rw [Words.words_nil, List.flatMap_nil]
  | case2 c rest hblank ih =>
    rw [Words.words_cons _ hblank]
    exact ih fun hmem => hquote (List.mem_cons_of_mem c hmem)
  | case3 rest => exact absurd List.mem_cons_self hquote
  | case4 rest => exact absurd List.mem_cons_self hquote
  | case5 c rest hblank hc ih =>
    have htail : '"' ∉ (rest.dropWhile fun d => !isBlank d).tail := by
      intro hmem
      have hrest := (List.dropWhile_sublist _).mem (List.mem_of_mem_tail hmem)
      exact hquote (List.mem_cons_of_mem c hrest)
    have hwords := Words.words_cons_word rest (show isBlank c = false by simpa using hblank)
    rw [ih htail, hwords]
    rfl

/-! ### Names of the default keys -/

theorem isBlank_iff {c : Char} : isBlank c = true ↔ c.toNat ≤ 32 := by
  rw [isBlank, decide_eq_true_iff]
  exact UInt32.le_iff_toNat_le

theorem isBlank_of_isspace {c : Char} (h : isspace c = true) : isBlank c = true := by
  simp only [isspace, Bool.or_eq_true, beq_iff_eq, Bool.and_eq_true, decide_eq_true_eq] at h
  rw [isBlank_iff]
  rcases h with rfl | h
  · decide
  · have hcr : '\r'.toNat = 13 := rfl
    omega

theorem tolower_of_isBlank {c : Char} (h : isBlank c = true) : tolower c = c := by
  have hle : c.toNat ≤ 32 := isBlank_iff.mp h
  exact tolower_of_lt (by omega)

/-- Upper and lower case of a name have the same blanks and quotes. -/
theorem plain_of_registered {w : Str} (h : KeyTable.Registered w) :
    Words.IsWord isBlank w ∧ '"' ∉ w := by
  have hplain : ∀ k ∈ KeyTable.defaultKeys ++ KeyTable.aliasKeys,
      Words.IsWord isBlank (KeyTable.normalizeName k.2) ∧ '"' ∉ KeyTable.normalizeName k.2 := by
    set_option maxRecDepth 10000 in decide +kernel
  obtain ⟨k, hk, hname⟩ := h
  obtain ⟨hword, hquote⟩ := hplain k hk
  rw [← hname] at hword hquote
  exact ⟨isWord_of_normalizeName (fun _ => tolower_of_isBlank) hword, quote_notMem_of_normalizeName hquote⟩

end Legacy
end Launchpad
