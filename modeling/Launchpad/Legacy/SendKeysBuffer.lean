/-
# The buffer of the legacy send-keys scanner

`process_sendkeys_command` on the positions of `tmpbuf`: every character it reads or
writes is looked up, and there is no value where one lies outside. The loops end by
their own recursions. As long as it is inside, the scanner is the one on texts
(`sendkeysFrom_eq`); it leaves the buffer exactly for a command of 255 characters
that ends in an open quoted string with a backslash that stands before nothing
(`sendkeys_inside_iff`).

What `find_input_key_code` and `send_ascii_string` read of a token ends with its zero
byte: the latter looks one character ahead only where there is one.
-/
import Launchpad.CStrings
import Launchpad.Legacy.SendKeys

namespace Launchpad
namespace Legacy

open CStrings

/-- `tmpbuf`. -/
abbrev Tmpbuf : Type := Vector Char maxPath

/-- The inner loop of a quoted string: a backslash screens the next character. -/
def closingQuote (b : Tmpbuf) (q : ℕ) : Option ℕ :=
  if h : q < maxPath then
    if b[q] = '"' ∨ b[q] = nul then some q
    else if b[q] = '\\' then closingQuote b (q + 2)
    else closingQuote b (q + 1)
  else none
termination_by maxPath - q

/-- The inner loop of another token. -/
def wordEnd (b : Tmpbuf) (q : ℕ) : Option ℕ :=
  if h : q < maxPath then if isBlank b[q] then some q else wordEnd b (q + 1) else none
termination_by maxPath - q

/-- What a function reads that is given a token: up to the zero byte. -/
def readString (b : Tmpbuf) (q : ℕ) : Option Str :=
  if h : q < maxPath then
    if b[q] = nul then some [] else (readString b (q + 1)).map (b[q] :: ·)
  else none
termination_by maxPath - q

theorem le_closingQuote (b : Tmpbuf) (q : ℕ) {e : ℕ} : closingQuote b q = some e → q ≤ e := by
  fun_induction closingQuote b q with
  | case1 q h hend => exact fun he => (Option.some.inj he).le
  | case2 q h hend hesc ih => exact fun he => (Nat.le_add_right q 2).trans (ih he)
  | case3 q h hend hesc ih => exact fun he => (Nat.le_add_right q 1).trans (ih he)
  | case4 => nofun

theorem le_wordEnd (b : Tmpbuf) (q : ℕ) {e : ℕ} : wordEnd b q = some e → q ≤ e := by
  fun_induction wordEnd b q with
  | case1 q h hblank => exact fun he => (Option.some.inj he).le
  | case2 q h hblank ih => exact fun he => (Nat.le_add_right q 1).trans (ih he)
  | case3 => nofun

/-- The loop of `process_sendkeys_command` from `q` on. -/
def sendkeysFrom (s : KeySender) (plimit : ℕ) (b : Tmpbuf) (q : ℕ) : Option (List ProcWrite) :=
  if _hlt : q < plimit then
    if h : q < maxPath then
      if isBlank b[q] then sendkeysFrom s plimit b (q + 1)
      else if b[q] = '"' then
        match _hend : closingQuote b (q + 1) with
        | none => none
        | some e =>
          if he : e < maxPath then
            let b' := if b[e] = '"' then b.set e nul else b
            (readString b' (q + 1)).bind fun token =>
              (sendkeysFrom s plimit b' (e + 1)).map (s.sendAsciiString token ++ ·)
          else none
      else
        match _hend : wordEnd b q with
        | none => none
        | some e =>
          if he : e < maxPath then
            let b' := if b[e] ≠ nul then b.set e nul else b
            (readString b' q).bind fun token =>
              (sendkeysFrom s plimit b' (e + 1)).map (sendToken s token ++ ·)
          else none
    else none
  else some []
termination_by plimit - q
decreasing_by
  · omega
  · have hle := le_closingQuote b (q + 1) _hend
    omega
  · have hle := le_wordEnd b q _hend
    omega

/-- `process_sendkeys_command`; `strcpy` has no value for a longer command. -/
def sendkeysInBuffer (s : KeySender) (p : Str) : Option (List ProcWrite) :=
  if p.length < maxPath then sendkeysFrom s p.length (ofText p) 0 else none

/-! ### What is left of the command -/

/-- From `q` on the buffer is as `strcpy` has left it. -/
def Unread (p : Str) (b : Tmpbuf) (q : ℕ) : Prop :=
  ∀ i, q ≤ i → i < maxPath → b[i]? = some (p.getD i nul)

variable {p : Str} {b : Tmpbuf} {q e : ℕ}

theorem unread_ofText (p : Str) : Unread p (ofText p) 0 := fun i _ hi => by
  simp [ofText, hi]

theorem Unread.mono (h : Unread p b q) (hle : q ≤ e) : Unread p b e :=
  fun i hi => h i (hle.trans hi)

theorem Unread.getElem_eq (h : Unread p b q) (hq : q < maxPath) : b[q] = p.getD q nul := by
  have hget := h q le_rfl hq
  rwa [Vector.getElem?_eq_getElem hq, Option.some_inj] at hget

/-- A zero byte that was written at `e`, if one was, leaves what is behind it. -/
theorem Unread.cut {b' : Tmpbuf} (h : Unread p b q) (hle : q ≤ e) (he : e < maxPath)
    (hcut : b' = b.set e nul ∨ b' = b ∧ p.length ≤ e) : Unread p b' (e + 1) := fun i hi hlt => by
  rcases hcut with rfl | ⟨rfl, -⟩
  · rw [Vector.getElem?_set_ne he (by omega)]
    exact h i (by omega) hlt
  · exact h i (by omega) hlt

theorem getD_ne_nul (hnul : nul ∉ p) (hq : q < p.length) : p.getD q nul ≠ nul := by
  rw [List.getD_eq_getElem _ _ hq]
  exact fun h => hnul (h ▸ List.getElem_mem hq)

/-- The command has ended where the buffer has a zero byte. -/
theorem Unread.length_le (h : Unread p b q) (hnul : nul ∉ p) (hq : q < maxPath) (hend : b[q] = nul) :
    p.length ≤ q :=
  le_of_not_gt fun hlt => getD_ne_nul hnul hlt (by rw [← h.getElem_eq hq, hend])

theorem drop_eq_cons (hq : q < p.length) : p.drop q = p.getD q nul :: p.drop (q + 1) := by
  rw [List.getD_eq_getElem _ _ hq]
  exact List.drop_eq_getElem_cons hq

theorem take_drop_eq_cons (hq : q < p.length) (he : q < e) :
    (p.drop q).take (e - q) = p.getD q nul :: (p.drop (q + 1)).take (e - (q + 1)) := by
  have hk : e - q = e - (q + 1) + 1 := by omega
  rw [drop_eq_cons hq, hk, List.take_succ_cons]

/-- A string in the buffer is read up to the zero byte behind it. -/
theorem readString_eq : ∀ (token : Str) (q : ℕ), nul ∉ token →
    (∀ i < token.length, b[q + i]? = token[i]?) → b[q + token.length]? = some nul →
    readString b q = some token
  | [], q, _, _, hend => by
    rw [List.length_nil, Nat.add_zero] at hend
    obtain ⟨hq, hget⟩ := Vector.getElem?_eq_some_iff.mp hend
    rw [readString, dif_pos hq, if_pos hget]
  | c :: token, q, hnul, hchars, hend => by
    have hc := hchars 0 (Nat.succ_pos _)
    rw [Nat.add_zero] at hc
    obtain ⟨hq, hget⟩ := Vector.getElem?_eq_some_iff.mp (hc.trans List.getElem?_cons_zero)
    have hne : b[q] ≠ nul := fun h => hnul (by rw [← h, ← hget]; exact List.mem_cons_self)
    have hrest := readString_eq token (q + 1) (fun h => hnul (List.mem_cons_of_mem c h))
      (fun i hi => by
        have hi' := hchars (i + 1) (Nat.succ_lt_succ hi)
        rwa [List.getElem?_cons_succ, ← Nat.add_assoc, Nat.add_right_comm] at hi')
      (by rwa [List.length_cons, ← Nat.add_assoc, Nat.add_right_comm] at hend)
    rw [readString, dif_pos hq, if_neg hne, hrest]
    exact congrArg (fun d => some (d :: token)) hget

/-- What a function reads of the token from `q` to `e`, where a zero byte was written
unless the command has ended. -/
theorem readString_token {b' : Tmpbuf} (hb : Unread p b q) (hnul : nul ∉ p) (hq : q ≤ p.length)
    (hqe : q ≤ e) (he : e < maxPath)
    (hcut : b' = b.set e nul ∨ b' = b ∧ p.length ≤ e) :
    readString b' q = some ((p.drop q).take (e - q)) := by
  have hbefore : ∀ i, q ≤ i → i < e → b'[i]? = some (p.getD i nul) := fun i hi hie => by
    rcases hcut with rfl | ⟨rfl, -⟩
    · rw [Vector.getElem?_set_ne he (by omega)]
      exact hb i hi (by omega)
    · exact hb i hi (by omega)
  have hlength : ((p.drop q).take (e - q)).length = min (e - q) (p.length - q) := by
    rw [List.length_take, List.length_drop]
  refine readString_eq _ q (fun h => hnul (List.mem_of_mem_drop (List.mem_of_mem_take h)))
    (fun i hi => ?_) ?_
  · rw [hlength] at hi
    rw [hbefore (q + i) (by omega) (by omega), List.getElem?_take_of_lt (by omega), List.getElem?_drop,
      List.getD_eq_getElem _ _ (by omega), List.getElem?_eq_getElem]
  · rw [hlength]
    rcases Nat.lt_or_ge e p.length with hlt | hge
    · have hmin : q + min (e - q) (p.length - q) = e := by omega
      rw [hmin]
      rcases hcut with rfl | ⟨-, hge⟩
      · exact Vector.getElem?_set_self he
      · omega
    · have hmin : q + min (e - q) (p.length - q) = p.length := by omega
      rw [hmin]
      rcases Nat.lt_or_ge p.length e with hlt | hle
      · rw [hbefore p.length hq hlt, List.getD_eq_default _ _ le_rfl]
      · obtain rfl : e = p.length := by omega
        rcases hcut with rfl | ⟨rfl, -⟩
        · exact Vector.getElem?_set_self he
        · rw [hb p.length hqe he, List.getD_eq_default _ _ le_rfl]

/-! ### The inner loops -/

theorem scanQuoted_cons (room : ℕ) {c : Char} (rest : Str) (hquote : c ≠ '"') (hesc : c ≠ '\\') :
    scanQuoted room (c :: rest) = (scanQuoted room rest).map fun r => (c :: r.1, r.2) := by
  rw [scanQuoted]
  · exact hquote
  · rintro rfl
    exact absurd rfl hesc
  · rintro d rest' rfl
    exact absurd rfl hesc

theorem closingQuote_stops (b : Tmpbuf) (q : ℕ) {e : ℕ} :
    closingQuote b q = some e → ∃ he : e < maxPath, b[e] = '"' ∨ b[e] = nul := by
  fun_induction closingQuote b q with
  | case1 q h hend =>
    intro he
    obtain rfl := Option.some.inj he
    exact ⟨h, hend⟩
  | case2 q h hend hesc ih => exact ih
  | case3 q h hend hesc ih => exact ih
  | case4 => nofun

/-- The scan for the closing quote on positions is the one on texts. -/
theorem scanQuoted_eq (hnul : nul ∉ p) (hlen : p.length < maxPath) (b : Tmpbuf) (q : ℕ) :
    Unread p b q → q ≤ p.length →
      scanQuoted (maxPath - p.length) (p.drop q) =
        (closingQuote b q).map fun e => ((p.drop q).take (e - q), p.drop (e + 1)) := by
  fun_induction closingQuote b q with
  | case1 q h hend =>
    intro hb hq
    rw [Option.map_some, Nat.sub_self, List.take_zero]
    rcases Nat.lt_or_ge q p.length with hlt | hge
    · rw [hb.getElem_eq h] at hend
      rw [drop_eq_cons hlt, hend.resolve_right (getD_ne_nul hnul hlt)]
      rfl
    · rw [List.drop_of_length_le hge, List.drop_of_length_le (by omega)]
      rfl
  | case2 q h hend hesc ih =>
    intro hb hq
    rw [hb.getElem_eq h] at hesc
    have hlt : q < p.length := lt_of_not_ge fun hge =>
      absurd ((List.getD_eq_default _ _ hge).symm.trans hesc) (by decide)
    rcases Nat.lt_or_ge (q + 1) p.length with hlt' | hge
    · have hb₂ := hb.mono (Nat.le_add_right q 2)
      rw [drop_eq_cons hlt, drop_eq_cons hlt', hesc, scanQuoted, ih hb₂ hlt', Option.map_map]
      refine Option.map_congr fun e he => ?_
      have hle := le_closingQuote b (q + 2) he
      have hk : e - q = e - (q + 2) + 1 + 1 := by omega
      rw [hk, List.take_succ_cons, List.take_succ_cons]
      rfl
    · -- the backslash is the last character of the command
      rw [drop_eq_cons hlt, hesc, List.drop_of_length_le hge, scanQuoted, closingQuote]
      by_cases hroom : q + 2 < maxPath
      · have hnext : b[q + 2] = nul := by
          rw [(hb.mono (Nat.le_add_right q 2)).getElem_eq hroom, List.getD_eq_default _ _ (by omega)]
        have hk : q + 2 - q = 2 := by omega
        have hroom' : 2 ≤ maxPath - p.length := by omega
        rw [if_pos hroom', dif_pos hroom, if_pos (.inr hnext), Option.map_some, hk,
          List.drop_of_length_le (by omega)]
        rfl
      · have hroom' : ¬ 2 ≤ maxPath - p.length := by omega
        rw [if_neg hroom', dif_neg hroom]
        rfl
  | case3 q h hend hesc ih =>
    intro hb hq
    rw [hb.getElem_eq h] at hend hesc
    rw [not_or] at hend
    have hlt : q < p.length := lt_of_not_ge fun hge => hend.2 (List.getD_eq_default _ _ hge)
    have hb₁ := hb.mono (Nat.le_succ q)
    calc scanQuoted (maxPath - p.length) (p.drop q)
        = (scanQuoted (maxPath - p.length) (p.drop (q + 1))).map
            fun r => (p.getD q nul :: r.1, r.2) := by
          rw [drop_eq_cons hlt, scanQuoted_cons _ _ hend.1 hesc]
      _ = (closingQuote b (q + 1)).map fun e =>
            (p.getD q nul :: (p.drop (q + 1)).take (e - (q + 1)), p.drop (e + 1)) := by
          rw [ih hb₁ hlt, Option.map_map]
          rfl
      _ = (closingQuote b (q + 1)).map fun e => ((p.drop q).take (e - q), p.drop (e + 1)) :=
          Option.map_congr fun e he => by
            rw [take_drop_eq_cons hlt (le_closingQuote b (q + 1) he)]
  | case4 q h =>
    intro _ hq
    omega

/-- The scan for the end of another token on positions is the one on texts. -/
theorem wordEnd_eq (hlen : p.length < maxPath) (b : Tmpbuf) (q : ℕ) :
    Unread p b q → q ≤ p.length →
      ∃ e, wordEnd b q = some e ∧ e ≤ p.length ∧
        (p.drop q).takeWhile (fun c => !isBlank c) = (p.drop q).take (e - q) ∧
        ((p.drop q).dropWhile fun c => !isBlank c).tail = p.drop (e + 1) := by
  fun_induction wordEnd b q with
  | case1 q h hblank =>
    intro hb hq
    refine ⟨q, rfl, hq, ?_⟩
    rw [Nat.sub_self, List.take_zero]
    rcases Nat.lt_or_ge q p.length with hlt | hge
    · rw [hb.getElem_eq h] at hblank
      have hstop : ¬ (!isBlank (p.getD q nul)) = true := by simpa using hblank
      rw [drop_eq_cons hlt, List.takeWhile_cons_of_neg (p := fun c => !isBlank c) hstop,
        List.dropWhile_cons_of_neg (p := fun c => !isBlank c) hstop]
      exact ⟨rfl, rfl⟩
    · rw [List.drop_of_length_le hge, List.drop_of_length_le (by omega)]
      exact ⟨rfl, rfl⟩
  | case2 q h hblank ih =>
    intro hb hq
    rw [hb.getElem_eq h] at hblank
    have hlt : q < p.length := lt_of_not_ge fun hge =>
      hblank (by rw [List.getD_eq_default _ _ hge]; decide)
    obtain ⟨e, he, hle, htake, hdrop⟩ := ih (hb.mono (Nat.le_succ q)) hlt
    have hpass : (!isBlank (p.getD q nul)) = true := by simpa using hblank
    refine ⟨e, he, hle, ?_, ?_⟩
    · rw [take_drop_eq_cons hlt (le_wordEnd b (q + 1) he), drop_eq_cons hlt,
        List.takeWhile_cons_of_pos (p := fun c => !isBlank c) hpass, htake]
    · rw [drop_eq_cons hlt, List.dropWhile_cons_of_pos (p := fun c => !isBlank c) hpass, hdrop]
  | case3 q h =>
    intro _ hq
    omega

/-! ### The scanner -/

theorem sendkeysLoop_blank (s : KeySender) (room : ℕ) {c : Char} (rest : Str)
    (hc : isBlank c = true) : sendkeysLoop s room (c :: rest) = sendkeysLoop s room rest := by
  rw [sendkeysLoop, if_pos hc]

theorem sendkeysLoop_quote (s : KeySender) (room : ℕ) (rest : Str) :
    sendkeysLoop s room ('"' :: rest) = (scanQuoted room rest).bind fun r =>
      (sendkeysLoop s room r.2).map (s.sendAsciiString r.1 ++ ·) := by
  have hblank : ¬ isBlank '"' = true := by decide
  rw [sendkeysLoop, if_neg hblank, if_pos rfl]
  split
  · rename_i hnone
    rw [hnone]
    rfl
  · rename_i token rest' hsome
    rw [hsome]
    rfl

theorem sendkeysLoop_word (s : KeySender) (room : ℕ) {c : Char} (rest : Str)
    (hc : ¬ isBlank c = true) (hquote : c ≠ '"') : sendkeysLoop s room (c :: rest) =
      (sendkeysLoop s room ((c :: rest).dropWhile fun d => !isBlank d).tail).map
        (sendToken s ((c :: rest).takeWhile fun d => !isBlank d) ++ ·) := by
  have hpass : (!isBlank c) = true := by simpa using hc
  rw [sendkeysLoop, if_neg hc, if_neg hquote,
    List.takeWhile_cons_of_pos (p := fun d => !isBlank d) hpass,
    List.dropWhile_cons_of_pos (p := fun d => !isBlank d) hpass]

/-- **The scanner on positions is the one on texts.** From any position, over a buffer
that is not yet changed from there on. -/
theorem sendkeysFrom_eq (s : KeySender) (hnul : nul ∉ p) (hlen : p.length < maxPath) (b : Tmpbuf)
    (q : ℕ) : Unread p b q →
      sendkeysFrom s p.length b q = sendkeysLoop s (maxPath - p.length) (p.drop q) := by
  fun_induction sendkeysFrom s p.length b q with
  | case1 b q hlt h hblank ih =>
    intro hb
    rw [hb.getElem_eq h] at hblank
    rw [ih (hb.mono (Nat.le_succ q)), drop_eq_cons hlt, sendkeysLoop_blank s _ _ hblank]
  | case2 b q hlt h hblank hquote hend =>
    intro hb
    rw [hb.getElem_eq h] at hquote
    rw [drop_eq_cons hlt, hquote, sendkeysLoop_quote,
      scanQuoted_eq hnul hlen b (q + 1) (hb.mono (Nat.le_succ q)) hlt, hend]
    rfl
  | case3 b q hlt h hblank hquote e hend hmax b' ih =>
    intro hb
    have hb₁ := hb.mono (Nat.le_succ q)
    have hle := le_closingQuote b (q + 1) hend
    obtain ⟨_, hstop⟩ := closingQuote_stops b (q + 1) hend
    rw [hb.getElem_eq h] at hquote
    have hcut : b' = b.set e nul ∨ b' = b ∧ p.length ≤ e := by
      by_cases hclosed : b[e] = '"'
      · exact .inl (dif_pos hclosed)
      · exact .inr ⟨dif_neg hclosed,
          (hb₁.mono hle).length_le hnul hmax (hstop.resolve_left hclosed)⟩
    rw [readString_token hb₁ hnul hlt hle hmax hcut, Option.bind_some,
      ih (hb₁.cut hle hmax hcut), drop_eq_cons hlt, hquote, sendkeysLoop_quote,
      scanQuoted_eq hnul hlen b (q + 1) hb₁ hlt, hend]
    rfl
  | case4 b q hlt h hblank hquote e hend hmax =>
    exact fun _ => absurd (closingQuote_stops b (q + 1) hend).1 hmax
  | case5 b q hlt h hblank hquote hend =>
    intro hb
    obtain ⟨e, he, -⟩ := wordEnd_eq hlen b q hb hlt.le
    exact absurd (hend.symm.trans he) nofun
  | case6 b q hlt h hblank hquote e hend hmax b' ih =>
    intro hb
    have hle := le_wordEnd b q hend
    rw [hb.getElem_eq h] at hblank hquote
    obtain ⟨e', he', hlast, htake, hdrop⟩ := wordEnd_eq hlen b q hb hlt.le
    obtain rfl : e' = e := Option.some.inj (he'.symm.trans hend)
    have hcut : b' = b.set e' nul ∨ b' = b ∧ p.length ≤ e' := by
      by_cases hopen : b[e'] ≠ nul
      · exact .inl (dif_pos hopen)
      · exact .inr ⟨dif_neg hopen, (hb.mono hle).length_le hnul hmax (not_not.mp hopen)⟩
    rw [readString_token hb hnul hlt.le hle hmax hcut, Option.bind_some, ih (hb.cut hle hmax hcut),
      ← hdrop, ← htake, drop_eq_cons hlt, sendkeysLoop_word s _ _ hblank hquote]
  | case7 b q hlt h hblank hquote e hend hmax =>
    intro hb
    obtain ⟨e', he', hlast, -⟩ := wordEnd_eq hlen b q hb hlt.le
    obtain rfl : e' = e := Option.some.inj (he'.symm.trans hend)
    omega
  | case8 b q hlt h => omega
  | case9 b q hlt =>
    intro _
    rw [List.drop_of_length_le (not_lt.mp hlt), sendkeysLoop]

theorem sendkeysInBuffer_eq (s : KeySender) (hnul : nul ∉ p) :
    sendkeysInBuffer s p = processSendkeysCommand s p := by
  unfold sendkeysInBuffer processSendkeysCommand
  split_ifs with hlen
  · exact sendkeysFrom_eq s hnul hlen _ 0 (unread_ofText p)
  · rfl

/-! ### Where the scanner leaves the buffer -/

/-- What the scanner takes the next character for. -/
inductive ScanMode where
  | between
  | word
  | quoted
  | screened
  deriving DecidableEq

def scanStep : ScanMode → Char → ScanMode
  | .between, c => if isBlank c then .between else if c = '"' then .quoted else .word
  | .word, c => if isBlank c then .between else .word
  | .quoted, c => if c = '"' then .between else if c = '\\' then .screened else .quoted
  | .screened, _ => .quoted

/-- A quoted string is open at the end of the command, and the last character is a
backslash that screens. -/
def EndsScreening (mode : ScanMode) (text : Str) : Prop := text.foldl scanStep mode = .screened

instance (mode : ScanMode) (text : Str) : Decidable (EndsScreening mode text) :=
  inferInstanceAs (Decidable (_ = _))

variable {room : ℕ} {text : Str}

/-- A quoted string leaves the buffer only at the end of the command. -/
theorem scanQuoted_screening (room : ℕ) (text : Str) :
    (scanQuoted room text = none ∧ room < 2 ∧ EndsScreening .quoted text) ∨
      ∃ r, scanQuoted room text = some r ∧
        (2 ≤ room ∨ (EndsScreening .quoted text ↔ EndsScreening .between r.2)) := by
  fun_induction scanQuoted room text with
  | case1 => exact .inr ⟨_, rfl, .inr (by decide)⟩
  | case2 rest => exact .inr ⟨_, rfl, .inr Iff.rfl⟩
  | case3 hroom => exact .inr ⟨_, rfl, .inl hroom⟩
  | case4 hroom => exact .inl ⟨rfl, not_le.mp hroom, rfl⟩
  | case5 c rest ih =>
    have hmode : EndsScreening .quoted ('\\' :: c :: rest) ↔ EndsScreening .quoted rest := Iff.rfl
    rw [hmode]
    rcases ih with ⟨hnone, hroom, hends⟩ | ⟨r, hsome, h⟩
    · rw [hnone]
      exact .inl ⟨rfl, hroom, hends⟩
    · rw [hsome]
      exact .inr ⟨_, rfl, h⟩
  | case6 c rest hquote hlast hscreen ih =>
    have hesc : c ≠ '\\' := by
      rintro rfl
      cases rest with
      | nil => exact hlast rfl rfl
      | cons d rest => exact hscreen d rest rfl rfl
    have hmode : EndsScreening .quoted (c :: rest) ↔ EndsScreening .quoted rest := by
      rw [EndsScreening, List.foldl_cons, scanStep, if_neg hquote, if_neg hesc]
      rfl
    rw [hmode]
    rcases ih with ⟨hnone, hroom, hends⟩ | ⟨r, hsome, h⟩
    · rw [hnone]
      exact .inl ⟨rfl, hroom, hends⟩
    · rw [hsome]
      exact .inr ⟨_, rfl, h⟩

/-- A word ends at a blank, or with the command. -/
theorem endsScreening_word : ∀ text : Str, EndsScreening .word text ↔
    EndsScreening .between (text.dropWhile fun d => !isBlank d).tail
  | [] => by decide
  | c :: rest => by
    rw [EndsScreening, List.foldl_cons, scanStep]
    by_cases hc : isBlank c = true
    · have hstop : ¬ (!isBlank c) = true := by simpa using hc
      rw [if_pos hc, List.dropWhile_cons_of_neg (p := fun d => !isBlank d) hstop]
      rfl
    · have hpass : (!isBlank c) = true := by simpa using hc
      rw [if_neg hc, List.dropWhile_cons_of_pos (p := fun d => !isBlank d) hpass]
      exact endsScreening_word rest

theorem sendkeysLoop_isSome (s : KeySender) (room : ℕ) (text : Str) :
    (sendkeysLoop s room text).isSome = true ↔ 2 ≤ room ∨ ¬ EndsScreening .between text := by
  fun_induction sendkeysLoop s room text with
  | case1 => exact iff_of_true rfl (.inr (by decide))
  | case2 c rest hblank ih =>
    have hmode : EndsScreening .between (c :: rest) ↔ EndsScreening .between rest := by
      rw [EndsScreening, List.foldl_cons, scanStep, if_pos hblank]
      rfl
    rw [ih, hmode]
  | case3 rest hscan hblank =>
    rcases scanQuoted_screening room rest with ⟨-, hroom, hends⟩ | ⟨r, hsome, -⟩
    · refine iff_of_false Bool.false_ne_true (not_or.mpr ⟨not_le.mpr hroom, not_not.mpr ?_⟩)
      exact hends
    · exact absurd (hscan.symm.trans hsome) (Option.some_ne_none r).symm
  | case4 rest token rest' hscan hblank ih =>
    rcases scanQuoted_screening room rest with ⟨hnone, -⟩ | ⟨r, hsome, h⟩
    · exact absurd (hscan.symm.trans hnone) (Option.some_ne_none _)
    · obtain rfl : (token, rest') = r := Option.some.inj (hscan.symm.trans hsome)
      have hmode : EndsScreening .between ('"' :: rest) ↔ EndsScreening .quoted rest := Iff.rfl
      rw [Option.isSome_map, ih, hmode]
      rcases h with hroom | hiff
      · exact iff_of_true (.inl hroom) (.inl hroom)
      · rw [hiff]
  | case5 c rest hblank hquote ih =>
    have hmode : EndsScreening .between (c :: rest) ↔ EndsScreening .word rest := by
      rw [EndsScreening, List.foldl_cons, scanStep, if_neg hblank, if_neg hquote]
      rfl
    rw [Option.isSome_map, ih, hmode, endsScreening_word]

/-- **When the scanner stays in its buffer.** For every command that fits it: unless it
has 255 characters and ends with a backslash that screens in an open quoted string. -/
theorem sendkeys_inside_iff (s : KeySender) (p : Str) (hnul : nul ∉ p) (hlen : p.length ≤ 255) :
    (sendkeysInBuffer s p).isSome = true ↔ p.length < 255 ∨ ¬ EndsScreening .between p := by
  have hmax : maxPath = 256 := rfl
  rw [sendkeysInBuffer_eq s hnul, processSendkeysCommand, if_pos (by omega), sendkeysLoop_isSome]
  refine or_congr_left ?_
  omega

/-- What the witnesses send keys with. -/
def plainSender : KeySender := ⟨fun _ => true, fun _ => 0, fun _ => .normal⟩

theorem sendkeys_inside_quoted : (sendkeysInBuffer plainSender "Home \"a b\\".toList).isSome = true :=
  (sendkeys_inside_iff plainSender "Home \"a b\\".toList (by decide) (by decide)).mpr (.inl (by decide))

/-- A quote, 253 letters and a backslash: the scanner reads `tmpbuf[256]`. -/
theorem not_sendkeys_inside_backslash :
    ('"' :: (List.replicate 253 'a' ++ ['\\'])).length = 255 ∧
      sendkeysInBuffer plainSender ('"' :: (List.replicate 253 'a' ++ ['\\'])) = none := by
  have hlen : ('"' :: (List.replicate 253 'a' ++ ['\\'])).length = 255 := by decide +kernel
  have hnul : nul ∉ '"' :: (List.replicate 253 'a' ++ ['\\']) := by decide +kernel
  have hends : EndsScreening .between ('"' :: (List.replicate 253 'a' ++ ['\\'])) := by decide +kernel
  refine ⟨hlen, ?_⟩
  rw [sendkeysInBuffer_eq _ hnul, processSendkeysCommand, if_pos (by rw [hlen]; decide), hlen,
    ← Option.not_isSome_iff_eq_none, sendkeysLoop_isSome, not_or, not_not]
  exact ⟨by decide, hends⟩

end Legacy
end Launchpad
