/-
# Framework scripts in the legacy program

`process_kindle_script` of `src/launchpad.c` sends the tokens of a script to the
reader software, all but the first, which is `send_string`, and the last. It
collects them in an array of 64 and stops when that is full; the last of the array
is then taken for the last of the script (`scriptTokens_eq`). All tokens between the
first and the last are sent exactly when they are fewer than 64 (`processed_all_iff`).

Symbols are picked in a popup with the five-way keys (`send_kindle_input_key` of
`src/main.c`).
-/
import Launchpad.CStrings
import Launchpad.Words
import Launchpad.Legacy.AsciiTab

namespace Launchpad
namespace Legacy

open KeyCodes
open KeySender (ascii)

/-! ### Tokens -/

/-- The separators of `strtok_r`. -/
def isScriptBlank (c : Char) : Bool := c = ' ' || c = '\t' || c = '\n'

/-- `strtok_r`: the next token, and what is behind the separator after it. -/
def strtokR (text : Str) : Option (Str × Str) :=
  match text.dropWhile isScriptBlank with
  | [] => none
  | c :: rest =>
    some ((c :: rest).takeWhile fun d => !isScriptBlank d,
      ((c :: rest).dropWhile fun d => !isScriptBlank d).tail)

/-- The length of `tokens`. -/
def maxTokens : ℕ := 64

/-- The loop that fills `tokens`, with so many places left. -/
def collectTokens : ℕ → Str → List Str
  | 0, _ => []
  | room + 1, text =>
    match strtokR text with
    | none => []
    | some (token, rest) => token :: collectTokens room rest

/-- The tokens that are processed. -/
def scriptTokens (text : Str) : List Str :=
  match strtokR text with
  | none => []
  | some (_, rest) => (collectTokens maxTokens rest).dropLast

/-! ### Sending a token -/

/-- The symbols of the popup of a Kindle DX, row by row, as the rows of `kdxg_asciitab`
refer to them: its last is that of the DEL character. -/
def kdxgPopup : List Str :=
  ["\"'@-+*^()<>".toList, "?,!/=#|\x7b\x7d`~".toList, "&:.;_%$[]\x7f".toList]

/-- The symbols of the popup of a Kindle 3 that are in `k3_asciitab`. -/
def k3Popup : List Str :=
  [":<>\"?\x7b\x7d|`~".toList, ";,.'/[]\\".toList, "!@#$%^&*()_+".toList, "1234567890-=".toList]

/-- `char_kindle_fw_sequence`: the steps to the right and down from where the popup opens. -/
def charKindleFwSequence (isThisKindle3 : Bool) (c : Char) : Option (ℤ × ℤ) :=
  (if isThisKindle3 then k3Popup else kdxgPopup).zipIdx.findSome? fun row =>
    (row.1.idxOf? c).map fun col => ((col : ℤ) - 1, (row.2 : ℤ) - 1)

example : charKindleFwSequence false '%' = some (4, 1) ∧ charKindleFwSequence true '@' = some (0, 1) := by
  decide

section Send

variable (opened : ProcFile → Bool) (isThisKindle3 : Bool)

/-- `send_key` of a key in normal mode. -/
def sendNormal (code : RawKeyCode) : List ProcWrite :=
  (KeySender.ofModel opened isThisKindle3).sendKey code .normal

/-- `send_kindle_input_key`: what is written, and the number of events the framework will
inject. -/
def sendKindleInputKey (c : Char) : List ProcWrite × ℤ :=
  let c := ascii c
  match charKindleFwSequence isThisKindle3 c with
  | some (hsteps, vsteps) =>
    let chorz := if hsteps < 0 then kpkeyFwLeft else kpkeyFwRight
    let cvert := if vsteps < 0 then if isThisKindle3 then k3keyFwUp else kpkeyFwUp
      else if isThisKindle3 then k3keyFwDown else kpkeyFwDown
    let sym := if isThisKindle3 then k3keySym else kpkeySym
    let press := if isThisKindle3 then k3keyFwPress else kpkeyFwPress
    let keys := [sym] ++ List.replicate hsteps.natAbs chorz ++ List.replicate vsteps.natAbs cvert ++
      [press] ++ if isThisKindle3 then [k3keySym] else []
    (keys.flatMap (sendNormal opened isThisKindle3), hsteps.natAbs + vsteps.natAbs + 1)
  | none => ((KeySender.ofModel opened isThisKindle3).sendChar c, 0)

/-- `send_kindle_ascii_string`. -/
def sendKindleAsciiString (text : Str) : List ProcWrite × ℤ :=
  (text.flatMap fun c => (sendKindleInputKey opened isThisKindle3 c).1,
    (text.map fun c => (sendKindleInputKey opened isThisKindle3 c).2).sum)

/-- A round of the loop over the tokens. -/
def processToken : Str → List ProcWrite × ℤ
  | '\'' :: rest =>
    -- the closing apostrophe is taken off, or whatever is there
    let name := rest.dropLast
    match findInputKeyCode name with
    | some code =>
      let mode : SendMode :=
        if name.length = 1 ∧ name.all fun c => 'A' ≤ c ∧ c ≤ 'Z' then .shift else .normal
      ((KeySender.ofModel opened isThisKindle3).sendKey code mode, 0)
    | none => sendKindleInputKey opened isThisKindle3 (name.headD CStrings.nul)
  | '"' :: rest => sendKindleAsciiString opened isThisKindle3 rest.dropLast
  | token => sendKindleAsciiString opened isThisKindle3 token

/-- A token that was processed. -/
structure Processed where
  token : Str
  writes : List ProcWrite
  toskip : ℤ

def process (token : Str) : Processed :=
  ⟨token, (processToken opened isThisKindle3 token).1, (processToken opened isThisKindle3 token).2⟩

/-- `process_kindle_script`, token by token; it returns the sum of `toskip`. A text that
does not fit in its buffer has no value. -/
def processKindleScript (text : Str) : Option (List Processed) :=
  if text.length < maxPath then some ((scriptTokens text).map (process opened isThisKindle3)) else none

/-- The text `execute_action` makes of a command of kindle keys. -/
def kindleKeysScript (command : Str) : Str :=
  "send_string ".toList ++ (command ++ " 'DEL'".toList)

end Send

/-! ### Which tokens are processed -/

theorem strtokR_eq (text : Str) :
    strtokR text = none ∧ Words.words isScriptBlank text = [] ∨
      ∃ token rest, strtokR text = some (token, rest) ∧
        Words.words isScriptBlank text = token :: Words.words isScriptBlank rest := by
  have hlead : Words.words isScriptBlank text =
      Words.words isScriptBlank (text.dropWhile isScriptBlank) := by
    conv_lhs => rw [← List.takeWhile_append_dropWhile (p := isScriptBlank) (l := text)]
    exact Words.words_seps_append (fun x hx => List.mem_takeWhile_imp hx) _
  rw [hlead, strtokR]
  cases hdrop : text.dropWhile isScriptBlank with
  | nil => exact .inl ⟨rfl, Words.words_nil⟩
  | cons c rest =>
    refine .inr ⟨_, _, rfl, ?_⟩
    have hc : isScriptBlank c = false := by
      have hhead := List.head?_dropWhile_not isScriptBlank text
      rw [hdrop] at hhead
      simpa using hhead
    have htake : (c :: rest).takeWhile (fun d => !isScriptBlank d) =
        c :: rest.takeWhile fun d => !isScriptBlank d := by simp [hc]
    have hskip : (c :: rest).dropWhile (fun d => !isScriptBlank d) =
        rest.dropWhile fun d => !isScriptBlank d := by simp [hc]
    rw [htake, hskip]
    exact Words.words_cons_word rest hc

/-- The array holds the next words, as many as there is room for. -/
theorem collectTokens_eq : ∀ (room : ℕ) (text : Str),
    collectTokens room text = (Words.words isScriptBlank text).take room
  | 0, _ => rfl
  | room + 1, text => by
    rcases strtokR_eq text with ⟨hnone, hwords⟩ | ⟨token, rest, hsome, hwords⟩
    · rw [collectTokens, hnone, hwords]
      rfl
    · rw [collectTokens, hsome, hwords, List.take_succ_cons]
      exact congrArg (token :: ·) (collectTokens_eq room rest)

/-- Of the words after the first, the last of the first 64 is left out. -/
theorem scriptTokens_eq {text first : Str} {words : List Str}
    (h : Words.words isScriptBlank text = first :: words) :
    scriptTokens text = (words.take maxTokens).dropLast := by
  rcases strtokR_eq text with ⟨-, hwords⟩ | ⟨token, rest, hsome, hwords⟩
  · exact absurd (hwords.symm.trans h) (List.cons_ne_nil _ _).symm
  · obtain ⟨-, hrest⟩ := List.cons.inj (hwords.symm.trans h)
    rw [scriptTokens, hsome]
    dsimp only
    rw [collectTokens_eq, hrest]

/-- The last of the words is the one that is left out exactly when they all fit. -/
theorem dropLast_take_concat_iff {α : Type*} (ts : List α) (last : α) (k : ℕ) :
    ((ts ++ [last]).take (k + 1)).dropLast = ts ↔ ts.length ≤ k := by
  constructor
  · intro h
    have hlen := congrArg List.length h
    rw [List.length_dropLast, List.length_take, List.length_append, List.length_singleton] at hlen
    omega
  · intro h
    rw [List.take_of_length_le, List.dropLast_concat]
    rw [List.length_append, List.length_singleton]
    omega

variable {opened : ProcFile → Bool} {isThisKindle3 : Bool}

theorem processed_tokens (text : Str) (hlen : text.length < maxPath) (ts : List Str) :
    (∃ out, processKindleScript opened isThisKindle3 text = some out ∧ out.map Processed.token = ts) ↔
      scriptTokens text = ts := by
  have hmap : (scriptTokens text).map (Processed.token ∘ process opened isThisKindle3) =
      scriptTokens text := List.map_id _
  rw [processKindleScript, if_pos hlen]
  constructor
  · rintro ⟨out, hout, htokens⟩
    obtain rfl := Option.some.inj hout
    rwa [List.map_map, hmap] at htokens
  · intro h
    refine ⟨_, rfl, ?_⟩
    rw [List.map_map, hmap, h]

/-- All the tokens between the first and the last are processed when there is room for
them and one more. -/
theorem processed_all_iff {text first last : Str} (hlen : text.length < maxPath) {ts : List Str}
    (hwords : Words.words isScriptBlank text = first :: (ts ++ [last])) :
    (∃ out, processKindleScript opened isThisKindle3 text = some out ∧ out.map Processed.token = ts) ↔
      ts.length < maxTokens := by
  rw [processed_tokens text hlen, scriptTokens_eq hwords]
  exact (dropLast_take_concat_iff ts last 63).trans Nat.lt_succ_iff.symm

/-- **What a script sends.** All that stands between the first and the last token, in
order, if that is at most 63 tokens; of more, the first 63 and nothing behind the
64th. -/
theorem process_kindle_script_tokens (opened : ProcFile → Bool) (isThisKindle3 : Bool) (text : Str)
    (hlen : text.length < maxPath) (first last : Str) (ts : List Str)
    (hwords : Words.words isScriptBlank text = first :: (ts ++ [last])) :
    ∃ out, processKindleScript opened isThisKindle3 text = some out ∧
      (ts.length ≤ 63 → out.map Processed.token = ts) ∧
      (63 < ts.length → out.map Processed.token = ts.take 63 ∨ out.map Processed.token = ts.take 64) := by
  obtain ⟨out, hout, htokens⟩ := (processed_tokens text hlen _).mpr (scriptTokens_eq hwords)
  refine ⟨out, hout, fun hall => ?_, fun hmore => .inl ?_⟩
  · rw [htokens]
    exact (dropLast_take_concat_iff ts last 63).mpr hall
  · have hroom : maxTokens = 64 := rfl
    rw [htokens, List.dropLast_eq_take, List.take_take, List.length_take, List.length_append,
      List.length_singleton, hroom, List.take_append_of_le_length (by omega)]
    congr 1
    omega

theorem process_kindle_script_two :
    ∃ out, processKindleScript (fun _ => true) true "send_string 'Home' hello 'DEL'".toList = some out ∧
      out.map Processed.token = ["'Home'".toList, "hello".toList] := by
  obtain ⟨out, hout, hall, -⟩ := process_kindle_script_tokens (fun _ => true) true
    "send_string 'Home' hello 'DEL'".toList (by decide) "send_string".toList
    "'DEL'".toList ["'Home'".toList, "hello".toList] (by decide +kernel)
  exact ⟨out, hout, hall (by decide)⟩

/-- A script of seventy letters. -/
def longScript : Str :=
  "send_string ".toList ++ ((List.replicate 70 "a ".toList).flatten ++ "'DEL'".toList)

/-- The array of tokens is full before its end. -/
theorem not_process_kindle_script_long :
    Words.words isScriptBlank longScript =
        "send_string".toList :: (List.replicate 70 "a".toList ++ ["'DEL'".toList]) ∧
      ∃ out, processKindleScript (fun _ => true) true longScript = some out ∧
        out.map Processed.token = List.replicate 63 "a".toList := by
  have hwords : Words.words isScriptBlank longScript =
      "send_string".toList :: (List.replicate 70 "a".toList ++ ["'DEL'".toList]) := by decide +kernel
  refine ⟨hwords, (processed_tokens longScript (by decide +kernel) _).mpr ?_⟩
  rw [scriptTokens_eq hwords]
  decide +kernel

/-! ### Commands of kindle keys -/

/-- The keys of a command are all sent when they are fewer than 64. -/
theorem kindle_keys_iff (command : Str) (hlen : (kindleKeysScript command).length < maxPath) :
    (∃ out, processKindleScript opened isThisKindle3 (kindleKeysScript command) = some out ∧
      out.map Processed.token = Words.words isScriptBlank command) ↔
      (Words.words isScriptBlank command).length < maxTokens := by
  have hlast : Words.words isScriptBlank (command ++ " 'DEL'".toList) =
      Words.words isScriptBlank command ++ ["'DEL'".toList] :=
    (Words.words_append_cons command "'DEL'".toList (by decide)).trans
      (congrArg _ (Words.words_of_word (by decide)))
  have hwords : Words.words isScriptBlank (kindleKeysScript command) =
      "send_string".toList :: (Words.words isScriptBlank command ++ ["'DEL'".toList]) := by
    rw [← hlast]
    exact (Words.words_append_cons "send_string".toList (command ++ " 'DEL'".toList) (by decide)).trans
      (congrArg (· ++ _) (Words.words_of_word (by decide)))
  exact processed_all_iff hlen hwords

end Legacy
end Launchpad
