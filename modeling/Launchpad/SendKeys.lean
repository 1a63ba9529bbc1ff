/-
# The send-keys grammar

The text of a `SendKeysAction` is a list of tokens separated by spaces: key
names, strings in double quotes (`launchpad.ini`) and raw words, which are typed
as they are. `execute_send_keys` reads the text word by word and only then looks
for quotes, so a quoted string with a blank in it is cut and typed with its
quotes and without its blanks.

A token sends the keys it stands for if it is one word (`sendToken_text`). Read
word by word, a text never sends a blank (`not_isspace_of_mem_sendToken`), which
a broken string asks for: these two facts say exactly when the text is sent as
documented (`injections_textOf_iff`).
-/
import Launchpad.ActionExecutor

namespace Launchpad

open KeyCodes ActionExecutor

/-- A token of the grammar. -/
inductive SendToken
  | name (name : Str)
  | quoted (str : Str)
  | raw (word : Str)
  deriving DecidableEq

namespace SendToken

/-- How the token is written. -/
def text : SendToken → Str
  | .name n => n
  | .quoted s => '"' :: (s ++ ['"'])
  | .raw w => w

/-- The injections the token stands for. -/
def keys (table : KeyTable) : SendToken → List Call
  | .name n => (table.findCode n).toList.map (.injectKey · .normal)
  | .quoted s => s.map .injectAsciiChar
  | .raw w => w.map .injectAsciiChar

/-- A token of the grammar for the keys of a table. -/
def Valid (table : KeyTable) : SendToken → Prop
  | .name n => (table.findCode n).isSome
  | .quoted s => '"' ∉ s
  | .raw w => Words.IsWord isspace w ∧ '"' ∉ w ∧ table.findCode w = none

/-- No blank inside quotes. -/
def Unbroken : SendToken → Prop
  | .quoted s => ∀ c ∈ s, isspace c = false
  | _ => True

/-- A key name, or a quoted string of printable ASCII characters without quotes
and backslashes. -/
def Documented (table : KeyTable) : SendToken → Prop
  | .name n => (table.findCode n).isSome
  | .quoted s => ∀ c ∈ s, ' ' ≤ c ∧ c ≤ '~' ∧ c ≠ '"' ∧ c ≠ '\\'
  | .raw _ => False

end SendToken

/-- Texts one after the other, each but the last followed by one space and as
many more as it is paired with. -/
def spaced : List (Str × ℕ) → Str
  | [] => []
  | [(w, _)] => w
  | (w, n) :: v :: ws => w ++ ' ' :: (List.replicate n ' ' ++ spaced (v :: ws))

/-- The text of a list of tokens. -/
def textOf (ts : List (SendToken × ℕ)) : Str := spaced (ts.map fun t => (t.1.text, t.2))

/-- The injections a list of tokens stands for. -/
def keysOf (table : KeyTable) (ts : List (SendToken × ℕ)) : List Call :=
  ts.flatMap fun t => t.1.keys table

/-- The names of the table are words without quotes. -/
def KeyTable.PlainNames (table : KeyTable) : Prop :=
  ∀ n, (table.findCode n).isSome → Words.IsWord isspace n ∧ '"' ∉ n

theorem words_spaced : ∀ ws : List (Str × ℕ),
    Words.words isspace (spaced ws) = ws.flatMap fun w => Words.words isspace w.1
  | [] => by rw [spaced, Words.words_nil, List.flatMap_nil]
  | [(w, _)] => by rw [spaced, List.flatMap_singleton]
  | (w, n) :: v :: ws => by
    have ih := words_spaced (v :: ws)
    have hblank : ∀ x ∈ List.replicate n ' ', isspace x = true := by
      intro x hx
      rw [List.eq_of_mem_replicate hx]
      decide
    rw [spaced, Words.words_append_cons _ _ (by decide), Words.words_seps_append hblank, ih]
    rfl

namespace SendToken

variable {table : KeyTable}

theorem isWord_text (hplain : table.PlainNames) {t : SendToken} (hv : t.Valid table)
    (hu : t.Unbroken) : Words.IsWord isspace t.text := by
  cases t with
  | name n => exact (hplain n hv).1
  | raw w => exact hv.1
  | quoted s =>
    refine ⟨List.cons_ne_nil _ _, fun c hc => ?_⟩
    rw [text, List.mem_cons, List.mem_append, List.mem_singleton] at hc
    rcases hc with rfl | hc | rfl
    · decide
    · exact hu c hc
    · decide

theorem sendToken_of_noQuote {w : Str} (h : '"' ∉ w) : sendToken table w =
    match table.findCode w with
    | some code => [.injectKey code .normal]
    | none => sendQuotedString w := by
  have hnot : ¬ (w.length ≥ 2 ∧ w.head? = some '"' ∧ w.getLast? = some '"') := by
    rintro ⟨_, hhead, _⟩
    exact h (List.mem_of_mem_head? hhead)
  unfold sendToken
  exact if_neg hnot

theorem sendToken_quoted (s : Str) : sendToken table (quoted s).text = s.map .injectAsciiChar := by
  have hquotes : (quoted s).text.length ≥ 2 ∧ (quoted s).text.head? = some '"' ∧
      (quoted s).text.getLast? = some '"' := by
    refine ⟨?_, rfl, ?_⟩
    · simp [text]
    · rw [text, ← List.cons_append, List.getLast?_concat]
  rw [sendToken, if_pos hquotes]
  simp [text, sendQuotedString]

/-- A token that is read as one word sends what it stands for. -/
theorem sendToken_text (hplain : table.PlainNames) {t : SendToken} (hv : t.Valid table) :
    sendToken table t.text = t.keys table := by
  cases t with
  | name n =>
    obtain ⟨code, hcode⟩ := Option.isSome_iff_exists.mp hv
    rw [text, sendToken_of_noQuote (hplain n hv).2, keys, hcode]
    rfl
  | raw w =>
    rw [text, sendToken_of_noQuote hv.2.1, hv.2.2]
    rfl
  | quoted s => exact sendToken_quoted s

end SendToken

/-- A character that is sent for a word is one of its characters. -/
theorem mem_of_mem_sendToken {table : KeyTable} {w : Str} {c : Char}
    (h : .injectAsciiChar c ∈ sendToken table w) : c ∈ w := by
  have hmem : ∀ s : Str, .injectAsciiChar c ∈ sendQuotedString s → c ∈ s := by
    intro s hs
    obtain ⟨x, hx, hxc⟩ := List.mem_map.mp hs
    rwa [Call.injectAsciiChar.inj hxc] at hx
  unfold sendToken at h
  split_ifs at h
  · exact List.mem_of_mem_drop (List.mem_of_mem_take (hmem _ h))
  · split at h
    · exact nomatch List.mem_singleton.mp h
    · exact hmem w h

/-- Read word by word, a text never sends a blank. -/
theorem not_isspace_of_mem_sendToken {table : KeyTable} {l : Str} {c : Char}
    (h : .injectAsciiChar c ∈ (Words.words isspace l).flatMap (sendToken table)) :
    isspace c = false := by
  obtain ⟨w, hw, hc⟩ := List.mem_flatMap.mp h
  exact (Words.word_of_mem_words hw).2 c (mem_of_mem_sendToken hc)

/-- The text of valid tokens sends what they stand for exactly if no string is
broken by a blank. -/
theorem injections_textOf_iff (e : ActionExecutor) (hplain : e.keyTable.PlainNames)
    (ts : List (SendToken × ℕ)) (hv : ∀ t ∈ ts, t.1.Valid e.keyTable) :
    injections (e.executeSendKeys (textOf ts)) = keysOf e.keyTable ts ↔
      ∀ t ∈ ts, t.1.Unbroken := by
  rw [injections_executeSendKeys]
  constructor
  · intro heq t ht
    cases hquoted : t.1 with
    | name n => trivial
    | raw w => trivial
    | quoted s =>
      intro c hc
      have hkey : .injectAsciiChar c ∈ t.1.keys e.keyTable := by
        rw [hquoted]
        exact List.mem_map_of_mem hc
      have hsent : .injectAsciiChar c ∈ keysOf e.keyTable ts := List.mem_flatMap.mpr ⟨t, ht, hkey⟩
      rw [← heq] at hsent
      exact not_isspace_of_mem_sendToken hsent
  · intro hu
    rw [textOf, words_spaced, List.flatMap_map, List.flatMap_assoc, keysOf]
    apply List.flatMap_congr
    intro t ht
    rw [Words.words_of_word (SendToken.isWord_text hplain (hv t ht) (hu t ht)),
      List.flatMap_singleton, SendToken.sendToken_text hplain (hv t ht)]

/-! ### The keys of the default table -/

/-- No letter is before `A`. -/
theorem tolower_of_lt {c : Char} (h : c.toNat < 65) : tolower c = c := by
  unfold tolower Char.toLower
  rw [dif_neg fun hupper => ?_]
  have hle : 65 ≤ c.toNat := UInt32.le_iff_toNat_le.mp hupper.1
  omega

theorem tolower_of_isspace {c : Char} (h : isspace c = true) : tolower c = c := by
  simp only [isspace, Bool.or_eq_true, beq_iff_eq, Bool.and_eq_true, decide_eq_true_eq] at h
  apply tolower_of_lt
  rcases h with rfl | h
  · decide
  · have hcr : '\r'.toNat = 13 := rfl
    omega

/-- A name is a word if it is one in lower case. -/
theorem isWord_of_normalizeName {sep : Char → Bool} (hsep : ∀ c, sep c = true → tolower c = c) {w : Str}
    (h : Words.IsWord sep (KeyTable.normalizeName w)) : Words.IsWord sep w := by
  refine ⟨?_, fun c hc => ?_⟩
  · rintro rfl
    exact h.1 rfl
  · by_contra hc'
    rw [Bool.not_eq_false] at hc'
    have hlow : sep (tolower c) = false := h.2 _ (List.mem_map_of_mem hc)
    rw [hsep c hc', hc'] at hlow
    exact nomatch hlow

theorem quote_notMem_of_normalizeName {w : Str} (h : '"' ∉ KeyTable.normalizeName w) : '"' ∉ w := by
  intro hmem
  have hlow : tolower '"' = '"' := by decide
  apply h
  rw [← hlow]
  exact List.mem_map_of_mem hmem

/-- The default names are words without quotes. -/
theorem plainNames_new : KeyTable.new.PlainNames := by
  have hnames : ∀ e ∈ KeyTable.new.nameToCode.entries, Words.IsWord isspace e.1 ∧ '"' ∉ e.1 := by
    set_option maxRecDepth 10000 in decide +kernel
  intro n hn
  obtain ⟨code, hcode⟩ := Option.isSome_iff_exists.mp hn
  obtain ⟨hword, hquote⟩ := hnames ⟨_, code⟩ (AList.mem_lookup_iff.mp hcode)
  exact ⟨isWord_of_normalizeName (fun _ => tolower_of_isspace) hword, quote_notMem_of_normalizeName hquote⟩

/-! ### Documented texts -/

theorem SendToken.Documented.valid {table : KeyTable} {t : SendToken} (h : t.Documented table) :
    t.Valid table := by
  cases t with
  | name n => exact h
  | raw w => exact h.elim
  | quoted s => exact fun hquote => (h '"' hquote).2.2.1 rfl

theorem isspace_iff_of_printable {c : Char} (hlo : ' ' ≤ c) : isspace c = true ↔ c = ' ' := by
  have hle : 32 ≤ c.toNat := UInt32.le_iff_toNat_le.mp hlo
  have hcr : '\r'.toNat = 13 := rfl
  simp only [isspace, Bool.or_eq_true, beq_iff_eq, Bool.and_eq_true, decide_eq_true_eq]
  apply or_iff_left
  omega

theorem SendToken.Documented.unbroken_iff {table : KeyTable} (hplain : table.PlainNames)
    {t : SendToken} (h : t.Documented table) : t.Unbroken ↔ ' ' ∉ t.text := by
  cases t with
  | raw w => exact h.elim
  | name n =>
    refine iff_of_true trivial fun hmem => ?_
    exact absurd ((hplain n h).1.2 ' ' hmem) (by decide)
  | quoted s =>
    have hmem : ' ' ∈ (quoted s).text ↔ ' ' ∈ s := by simp [text]
    rw [hmem]
    constructor
    · intro hu hspace
      exact absurd (hu ' ' hspace) (by decide)
    · intro hnot c hc
      rw [← Bool.not_eq_true, isspace_iff_of_printable (h c hc).1]
      rintro rfl
      exact hnot hc

/-- **When a documented text is sent.** Executing key names and quoted strings,
written one after the other with spaces between, injects the code of every name
and every character of every string, in order and nothing else, if and only if
no string contains a space. -/
theorem injections_execute_iff (e : ActionExecutor) (hplain : e.keyTable.PlainNames)
    (before : List Call) (displayName : Str) (ts : List (SendToken × ℕ))
    (hdoc : ∀ t ∈ ts, t.1.Documented e.keyTable) :
    injections (e.execute before ⟨displayName, .sendKeys (textOf ts)⟩) = keysOf e.keyTable ts ↔
      ∀ t ∈ ts, ' ' ∉ t.1.text := by
  rw [execute, injections_textOf_iff e hplain ts fun t ht => (hdoc t ht).valid]
  exact forall₂_congr fun t ht => (hdoc t ht).unbroken_iff hplain

/-- An executor over the default table whose commands succeed. -/
def defaultExecutor : ActionExecutor where
  commandRunner _ _ := 0
  statusNotifier := true
  keyTable := .new

/-- `HOME  "ok"` is sent as documented. -/
theorem injections_execute_home_ok :
    injections (defaultExecutor.execute [] ⟨[], .sendKeys "HOME  \"ok\"".toList⟩) =
      [.injectKey kpkeyHome .normal, .injectAsciiChar 'o', .injectAsciiChar 'k'] := by
  have hdoc : ∀ t ∈ [(SendToken.name "HOME".toList, 1), (.quoted "ok".toList, 0)],
      t.1.Documented KeyTable.new := by
    intro t ht
    rw [List.mem_cons, List.mem_singleton] at ht
    rcases ht with rfl | rfl
    · show (KeyTable.new.findCode "HOME".toList).isSome
      decide +kernel
    · intro c hc
      have hok : c = 'o' ∨ c = 'k' := by simpa using hc
      rcases hok with rfl | rfl
      · decide
      · decide
  refine ((injections_execute_iff defaultExecutor plainNames_new [] [] _ hdoc).mpr (by decide)).trans ?_
  decide +kernel

/-- `"a b"` is typed with its quotes and without its space. -/
theorem not_injections_execute_blank :
    ¬ ∀ (e : ActionExecutor) (before : List Call) (displayName : Str) (ts : List (SendToken × ℕ)),
      e.keyTable.PlainNames → (∀ t ∈ ts, t.1.Documented e.keyTable) →
      injections (e.execute before ⟨displayName, .sendKeys (textOf ts)⟩) = keysOf e.keyTable ts := by
  intro hall
  have h := hall defaultExecutor [] [] [(.quoted "a b".toList, 0)] plainNames_new (by
    intro t ht
    rw [List.mem_singleton] at ht
    rw [ht]
    intro c hc
    have hab : c = 'a' ∨ c = ' ' ∨ c = 'b' := by simpa using hc
    rcases hab with rfl | rfl | rfl
    · decide
    · decide
    · decide)
  revert h
  decide +kernel

end Launchpad
