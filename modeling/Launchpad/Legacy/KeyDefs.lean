/-
# The legacy key definitions

`convert_key_code` and `get_input_keydefs` of `src/keydefs.c`, and the lookup
`find_input_key_code` of `src/launchpad.c` in the table they fill. The key of an
entry is kept at the entry's position in its section, while the count that the
lookup goes by is that of the entries accepted. So an entry is found only if its
position is below that count, which holds of every accepted one exactly when the
accepted entries come before all the others (`lt_countP_iff`); and since the lookup
ignores case, no other entry may have an accepted one's name in any case
(`keydefs_usable_iff`).
-/
import Mathlib.Data.List.Count
import Launchpad.Legacy.IniRows
import Launchpad.Legacy.SendKeys

namespace Launchpad
namespace Legacy

open IniMemory (Item enterItem)

/-- With the zero byte at its end. -/
def maxName : ℕ := 16

def maxKeys : ℕ := 96

/-! ### Key codes -/

/-- The digits at the start of a text, as a number. -/
def decimalValue (s : Str) : ℕ :=
  (s.takeWhile Char.isDigit).foldl (fun n c => 10 * n + (c.toNat - '0'.toNat)) 0

/-- `atoi`, which stops at the limits of its type. -/
def atoi (s : Str) : ℤ :=
  let s := s.dropWhile isspace
  let n : ℤ := if s.head? = some '-' then -decimalValue (s.drop 1)
    else if s.head? = some '+' then decimalValue (s.drop 1)
    else decimalValue s
  max (-2147483648) (min n 2147483647)

/-- The value of a hexadecimal digit. -/
def xdigit (c : Char) : Option ℕ :=
  if c.isDigit then some (c.toNat - '0'.toNat)
  else if 'a'.toNat ≤ (tolower c).toNat ∧ (tolower c).toNat ≤ 'f'.toNat then
    some ((tolower c).toNat - 'a'.toNat + 10)
  else none

/-- `sscanf` with `%x` on a text after its `0x`: without a digit nothing is stored;
a number too large for its type is the largest one. -/
def sscanfHex (s : Str) : Option (BitVec 32) :=
  let digits := (s.takeWhile fun c => (xdigit c).isSome).filterMap xdigit
  if digits = [] then none
  else some (BitVec.ofNat 32 (min (digits.foldl (fun n d => 16 * n + d) 0) (2 ^ 32 - 1)))

/-- The loop over octal digits, on an `int`. -/
def octal (s : Str) : BitVec 32 :=
  (s.takeWhile fun c => '0'.toNat ≤ c.toNat ∧ c.toNat ≤ '7'.toNat).foldl
    (fun rc c => (rc <<< 3) + BitVec.ofNat 32 (c.toNat - '0'.toNat)) 0

/-- The `switch` of `convert_key_code`. -/
def keyNumber (pbuf : Str) : ℤ :=
  if peek pbuf = '\'' then (peek (pbuf.drop 1)).toNat % 256
  else if peek pbuf = '0' then
    if tolower (peek (pbuf.drop 1)) = 'x' then ((sscanfHex (pbuf.drop 2)).map BitVec.toInt).getD (-1)
    else (octal pbuf).toInt
  else atoi pbuf

/-- A code from 0 to `MAXCODE`; -1 is `none`. -/
def convertKeyCode (pbuf : Str) : Option (Fin 256) :=
  if h : 0 ≤ keyNumber pbuf ∧ keyNumber pbuf ≤ maxCode then
    some ⟨(keyNumber pbuf).toNat, by have hmax : maxCode = 255 := rfl; omega⟩
  else none

example : [("30".toList), "0x1e".toList, "036".toList, "'A'".toList, "0x".toList, "-1".toList].map
    convertKeyCode = [some 30, some 30, some 30, some 65, none, none] := by decide

/-! ### The table of keys -/

/-- `struct input_key`. -/
structure InputKey where
  inputKeyCode : ℕ := 0
  inputKeyName : Str := []
  deriving DecidableEq

/-- `input_keys`, `input_key_codes` (-1 is `none`) and `n_input_keys`. -/
structure InputKeys where
  ptab : Vector InputKey maxKeys := .replicate maxKeys {}
  pcodes : Vector (Option ℕ) 256 := .replicate 256 none
  count : ℕ := 0

/-- One round of the loop of `get_input_keydefs`; a name or a value too long for its
buffer is not defined. -/
def keydefStep (db : IniDb) (sidx : ℕ) (t : InputKeys) (i : ℕ) : Option InputKeys :=
  let name := (inidbGetKeyName db sidx i).getD []
  if name.length ≥ maxName then none
  else if name.length > 0 then
    let value := (inidbGetKeyValue db sidx i).getD []
    if value.length ≥ maxPath then none
    else if value.length > 0 then
      match convertKeyCode value with
      | some code =>
        if t.pcodes[code] = none then
          some { ptab := t.ptab.setIfInBounds i ⟨code, name⟩
                 pcodes := t.pcodes.set code (some i)
                 count := t.count + 1 }
        else some t
      | none => some t
    else some t
  else some t

/-- `get_input_keydefs` on a file with that text. -/
def getInputKeydefs (text : Str) : Option InputKeys :=
  if (IniMemory.parseIniFile text).isSome then
    match inidbOpen text with
    | none => some {}
    | some db =>
      match inidbFindSection db "InputKeys".toList with
      | none => some {}
      | some sidx => (List.range (min (inidbGetNumberOfKeys db sidx) maxKeys)).foldlM (keydefStep db sidx) {}
  else none

namespace InputKeys

/-- `find_input_key_code`; -1 is `none`. -/
def findInputKeyCode (t : InputKeys) (pkey : Str) : Option ℕ :=
  ((t.ptab.toList.take t.count).find? fun k => strcasecmp k.inputKeyName pkey).map InputKey.inputKeyCode

/-- Entry `i` was accepted with that code. -/
def Accepts (t : InputKeys) (i : ℕ) (code : Fin 256) : Prop := t.pcodes[code] = some i

end InputKeys

/-! ### What is accepted -/

/-- The code of entry `i`, if its value is one. -/
def codeAt (es : List IniEntry) (i : ℕ) : Option (Fin 256) :=
  es[i]?.bind fun e => convertKeyCode e.value

/-- Entry `i` has a code, and no entry before it has the same. -/
def accepted (es : List IniEntry) (i : ℕ) : Bool :=
  match codeAt es i with
  | none => false
  | some code => (List.range i).all fun j => codeAt es j ≠ some code

/-- The row of entry `i` once the loop has been there. -/
def keyOf (es : List IniEntry) (i : ℕ) : InputKey :=
  match es[i]?, codeAt es i with
  | some e, some code => if accepted es i then ⟨code, e.key⟩ else {}
  | _, _ => {}

/-- The accepted entries come before all others. -/
def AcceptedFirst (es : List IniEntry) : Prop :=
  ∀ i j, i < j → accepted es j = true → accepted es i = true

/-- No entry has the name of an accepted one, in any case. -/
def NamesApart (es : List IniEntry) : Prop :=
  ∀ i j e e', es[i]? = some e → es[j]? = some e' → accepted es i = true → i ≠ j →
    strcasecmp e.key e'.key = false

/-- Every accepted entry is found under its name with its code, and no other is
found. -/
def InputKeys.Usable (t : InputKeys) (es : List IniEntry) : Prop :=
  ∀ i e, es[i]? = some e →
    (∀ code, t.Accepts i code → t.findInputKeyCode e.key = some code) ∧
    ((∀ code, ¬ t.Accepts i code) → t.findInputKeyCode e.key = none)

/-- The table after the first `k` entries. -/
structure Filled (es : List IniEntry) (k : ℕ) (t : InputKeys) : Prop where
  codes : ∀ (code : Fin 256) i, t.Accepts i code ↔
    i < k ∧ codeAt es i = some code ∧ ∀ j < i, codeAt es j ≠ some code
  rows : ∀ i : Fin maxKeys, t.ptab[i] = if (i : ℕ) < k then keyOf es i else {}
  count : t.count = (List.range k).countP (accepted es)

variable {es : List IniEntry} {i j k : ℕ} {e : IniEntry} {t : InputKeys} {code : Fin 256}

theorem accepted_iff : accepted es i = true ↔
    ∃ code, codeAt es i = some code ∧ ∀ j < i, codeAt es j ≠ some code := by
  unfold accepted
  cases hcode : codeAt es i with
  | none => simp
  | some code => simp

theorem accepted_of_codeAt (hcode : codeAt es i = some code) :
    accepted es i = true ↔ ∀ j < i, codeAt es j ≠ some code := by
  rw [accepted_iff]
  constructor
  · rintro ⟨code', hcode', hfirst⟩
    obtain rfl := Option.some.inj (hcode.symm.trans hcode')
    exact hfirst
  · exact fun hfirst => ⟨code, hcode, hfirst⟩

theorem keyOf_accepted (he : es[i]? = some e) (hcode : codeAt es i = some code)
    (hacc : accepted es i = true) : keyOf es i = ⟨code, e.key⟩ := by
  simp only [keyOf, he, hcode, hacc, ↓reduceIte]

theorem keyOf_rejected (hacc : accepted es i = false) : keyOf es i = {} := by
  unfold keyOf
  split
  · simp [hacc]
  · rfl

/-- Two entries are not accepted with the same code. -/
theorem accepted_unique (hi : accepted es i = true) (hj : accepted es j = true)
    (hcode : codeAt es i = some code) (hcode' : codeAt es j = some code) : i = j := by
  rcases Nat.lt_trichotomy i j with hlt | heq | hgt
  · exact absurd hcode ((accepted_of_codeAt hcode').mp hj i hlt)
  · exact heq
  · exact absurd hcode' ((accepted_of_codeAt hcode).mp hi j hgt)

/-! ### The loop -/

theorem filled_zero (es : List IniEntry) : Filled es 0 {} where
  codes := fun code i => by simp [InputKeys.Accepts]
  rows := fun i => by simp
  count := rfl

/-- One more entry: its row. -/
theorem row_succ (es : List IniEntry) (k i : ℕ) : (if i < k + 1 then keyOf es i else {}) =
    if k = i then keyOf es k else if i < k then keyOf es i else {} := by
  by_cases hik : k = i
  · rw [if_pos hik, if_pos (by omega), hik]
  · have hlt : i < k + 1 ↔ i < k := by omega
    simp only [if_neg hik, hlt]

/-- One more entry: it has its code if it is accepted. -/
theorem first_succ :
    (i < k + 1 ∧ codeAt es i = some code ∧ ∀ j < i, codeAt es j ≠ some code) ↔
      (i < k ∧ codeAt es i = some code ∧ ∀ j < i, codeAt es j ≠ some code) ∨
        i = k ∧ codeAt es k = some code ∧ accepted es k = true := by
  rw [Nat.lt_succ_iff_lt_or_eq, or_and_right]
  refine or_congr_right (and_congr_right fun hik => ?_)
  rw [hik]
  exact and_congr_right fun hcode => (accepted_of_codeAt hcode).symm

/-- A round that leaves the table, at an entry that is not accepted. -/
theorem Filled.skip (h : Filled es k t) (hacc : accepted es k = false) : Filled es (k + 1) t := by
  refine ⟨fun code i => ?_, fun i => ?_, ?_⟩
  · rw [first_succ, hacc, h.codes code i]
    simp
  · rw [row_succ, h.rows i]
    by_cases hik : k = (i : ℕ)
    · rw [if_pos hik, if_neg (by omega), keyOf_rejected hacc]
    · rw [if_neg hik]
  · rw [h.count, List.range_succ, List.countP_append]
    simp [hacc]

/-- A round that stores the key of an accepted entry. -/
theorem Filled.store (h : Filled es k t) (he : es[k]? = some e)
    (hcode : codeAt es k = some code) (hacc : accepted es k = true) :
    Filled es (k + 1)
      { ptab := t.ptab.setIfInBounds k ⟨code, e.key⟩
        pcodes := t.pcodes.set code (some k)
        count := t.count + 1 } := by
  refine ⟨fun code' i => ?_, fun i => ?_, ?_⟩
  · have hold := h.codes code' i
    simp only [InputKeys.Accepts, Fin.getElem_fin, Vector.getElem_set] at hold ⊢
    rw [first_succ]
    by_cases hsame : (code : ℕ) = code'
    · obtain rfl : code = code' := Fin.ext hsame
      rw [if_pos rfl, Option.some.injEq]
      constructor
      · exact fun hik => Or.inr ⟨hik.symm, hcode, hacc⟩
      · rintro (⟨hlt, hcode', hfirst'⟩ | ⟨hik, -⟩)
        · exact accepted_unique hacc ((accepted_of_codeAt hcode').mpr hfirst') hcode hcode'
        · exact hik.symm
    · rw [if_neg hsame, hold, or_iff_left]
      rintro ⟨-, hcode', -⟩
      exact hsame (congrArg Fin.val (Option.some.inj (hcode.symm.trans hcode')))
  · have hold := h.rows i
    simp only [Fin.getElem_fin, Vector.getElem_setIfInBounds] at hold ⊢
    rw [row_succ]
    by_cases hik : k = (i : ℕ)
    · rw [if_pos hik, if_pos hik, keyOf_accepted he hcode hacc]
    · rw [if_neg hik, if_neg hik, hold]
  · rw [h.count, List.range_succ, List.countP_append]
    simp [hacc]

/-- A code is not in use yet exactly when the entry is the first to have it. -/
theorem Filled.free_iff (h : Filled es k t) (hcode : codeAt es k = some code) :
    t.pcodes[code] = none ↔ accepted es k = true := by
  rw [accepted_of_codeAt hcode, Option.eq_none_iff_forall_not_mem]
  constructor
  · intro hnone j hj hcodej
    -- the first entry with the code was accepted
    have hex : ∃ i, codeAt es i = some code := ⟨j, hcodej⟩
    classical
    have hle : Nat.find hex ≤ j := Nat.find_min' hex hcodej
    exact hnone (Nat.find hex) ((h.codes code _).mpr
      ⟨by omega, Nat.find_spec hex, fun m hm => Nat.find_min hex hm⟩)
  · intro hfirst i hi
    obtain ⟨hlt, hcodei, -⟩ := (h.codes code i).mp hi
    exact hfirst i hlt hcodei

variable {db : IniDb} {sidx : ℕ}

/-- One round, at an entry whose name and value are not empty. -/
theorem Filled.step (h : Filled es k t) (he : es[k]? = some e)
    (hkey : inidbGetKeyName db sidx k = some e.key)
    (hval : inidbGetKeyValue db sidx k = some e.value)
    (hname : e.key ≠ []) (hvalue : e.value ≠ []) (hshort : e.key.length < maxName) :
    Runs.Takes (keydefStep db sidx t k) (e.value.length < maxPath) (Filled es (k + 1)) := by
  have hnpos : e.key.length > 0 := List.length_pos_iff.mpr hname
  have hvpos : e.value.length > 0 := List.length_pos_iff.mpr hvalue
  unfold keydefStep
  simp only [hkey, hval, Option.getD_some, if_neg (Nat.not_le.mpr hshort), if_pos hnpos, if_pos hvpos]
  by_cases hfits : e.value.length < maxPath
  · rw [if_neg (Nat.not_le.mpr hfits)]
    have hcodeAt : codeAt es k = convertKeyCode e.value := by rw [codeAt, he]; rfl
    cases hcode : convertKeyCode e.value with
    | none =>
      have hacc : accepted es k = false := by
        unfold accepted
        rw [hcodeAt, hcode]
      exact Runs.takes_some (h.skip hacc) hfits
    | some code =>
      rw [hcode] at hcodeAt
      have hfree := h.free_iff hcodeAt
      show Runs.Takes (if t.pcodes[code] = none then _ else _) _ _
      by_cases hacc : accepted es k = true
      · rw [if_pos (hfree.mpr hacc)]
        exact Runs.takes_some (h.store he hcodeAt hacc) hfits
      · rw [if_neg (mt hfree.mp hacc)]
        exact Runs.takes_some (h.skip (by simpa using hacc)) hfits
  · rw [if_pos (Nat.not_lt.mp hfits)]
    exact Runs.takes_none hfits

/-- The loop over the first `n` entries. -/
theorem filled_foldlM (n : ℕ)
    (hall : ∀ k < n, ∃ e, es[k]? = some e ∧ inidbGetKeyName db sidx k = some e.key ∧
      inidbGetKeyValue db sidx k = some e.value ∧ e.key ≠ [] ∧ e.value ≠ [] ∧
      e.key.length < maxName) :
    Runs.Takes ((List.range n).foldlM (keydefStep db sidx) {})
      (∀ k < n, ∀ e, es[k]? = some e → e.value.length < maxPath) (Filled es n) := by
  induction n with
  | zero => exact Runs.takes_some (filled_zero es) fun k hk => absurd hk (Nat.not_lt_zero k)
  | succ n ih =>
    have ih := ih fun k hk => hall k (Nat.lt_succ_of_lt hk)
    obtain ⟨e, he, hkey, hval, hname, hvalue, hshort⟩ := hall n (Nat.lt_succ_self n)
    have hsplit : (∀ k < n + 1, ∀ e, es[k]? = some e → e.value.length < maxPath) ↔
        (∀ k < n, ∀ e, es[k]? = some e → e.value.length < maxPath) ∧ e.value.length < maxPath := by
      rw [Nat.forall_lt_succ_right]
      refine and_congr_right fun _ => ⟨fun h => h e he, fun h e' he' => ?_⟩
      obtain rfl := Option.some.inj (he.symm.trans he')
      exact h
    rw [hsplit, List.range_succ]
    exact ih.foldlM_concat fun t _ hfilled => hfilled.step he hkey hval hname hvalue hshort

/-! ### The lookup -/

/-- Only so many numbers below `n` pass; every one that does is below their count
exactly when all that pass come first. -/
theorem lt_countP_iff (f : ℕ → Bool) (n : ℕ) :
    (∀ i < n, f i = true → i < (List.range n).countP f) ↔
      ∀ i j, i < j → j < n → f j = true → f i = true := by
  induction n with
  | zero =>
    refine iff_of_true (fun i hi => ?_) (fun i j _ hj => ?_)
    · exact absurd hi (Nat.not_lt_zero i)
    · exact absurd hj (Nat.not_lt_zero j)
  | succ n ih =>
    have hle : (List.range n).countP f ≤ n := by
      simpa using (List.countP_le_length : (List.range n).countP f ≤ (List.range n).length)
    have hsucc : (List.range (n + 1)).countP f = (List.range n).countP f + if f n then 1 else 0 := by
      rw [List.range_succ, List.countP_append, List.countP_singleton]
    rw [hsucc]
    by_cases hn : f n = true
    · rw [if_pos hn]
      have hfull : (List.range n).countP f = n ↔ ∀ i < n, f i = true := by
        have hlength := List.countP_eq_length (p := f) (l := List.range n)
        simpa using hlength
      constructor
      · intro h i j hij hj _
        have hcount : (List.range n).countP f = n := by
          have hlast := h n (Nat.lt_succ_self n) hn
          omega
        exact hfull.mp hcount i (by omega)
      · intro h i hi _
        have hcount := hfull.mpr fun i hi => h i n hi (Nat.lt_succ_self n) hn
        omega
    · rw [if_neg hn, Nat.add_zero]
      constructor
      · intro h i j hij hj hfj
        have hne : j ≠ n := by
          rintro rfl
          exact hn hfj
        exact ih.mp (fun i hi => h i (Nat.lt_succ_of_lt hi)) i j hij (by omega) hfj
      · intro h i hi hfi
        have hne : i ≠ n := by
          rintro rfl
          exact hn hfi
        exact ih.mpr (fun i j hij hj => h i j hij (Nat.lt_succ_of_lt hj)) i (by omega) hfi

theorem Filled.accepts_iff (h : Filled es es.length t) (he : es[i]? = some e) :
    t.Accepts i code ↔ codeAt es i = some code ∧ accepted es i = true := by
  have hlt : i < es.length := (List.getElem?_eq_some_iff.mp he).1
  rw [h.codes code i, and_iff_right hlt]
  exact and_congr_right fun hcode => (accepted_of_codeAt hcode).symm

/-- The rows that are looked at. -/
theorem Filled.take_rows (h : Filled es es.length t) (hlen : es.length ≤ maxKeys) :
    t.ptab.toList.take t.count = (List.range t.count).map (keyOf es) := by
  have hcount : t.count ≤ es.length := by
    rw [h.count]
    simpa using (List.countP_le_length : (List.range es.length).countP (accepted es) ≤ _)
  refine List.ext_getElem (by simp; omega) fun i hi hi' => ?_
  have hi : i < t.count := by simpa using hi'
  have hrow := h.rows ⟨i, by omega⟩
  rw [if_pos (by simp only; omega)] at hrow
  simpa using hrow

/-- A row under a name that is not empty is that of an accepted entry. -/
theorem accepted_of_match {name : Str} (hname : name ≠ [])
    (hmatch : strcasecmp (keyOf es i).inputKeyName name = true) : accepted es i = true := by
  by_contra hacc
  rw [keyOf_rejected (by simpa using hacc)] at hmatch
  have hmap : [] = name.map tolower := of_decide_eq_true hmatch
  exact hname (List.map_eq_nil_iff.mp hmap.symm)

theorem code_of_accepted (hacc : accepted es i = true) :
    ∃ e code, es[i]? = some e ∧ codeAt es i = some code ∧ keyOf es i = ⟨code, e.key⟩ := by
  obtain ⟨code, hcode, -⟩ := accepted_iff.mp hacc
  obtain ⟨e, he, -⟩ := Option.bind_eq_some_iff.mp hcode
  exact ⟨e, code, he, hcode, keyOf_accepted he hcode hacc⟩

/-- The lookup finds the first row below the count. -/
theorem Filled.find_eq_some_iff (h : Filled es es.length t) (hlen : es.length ≤ maxKeys)
    {name : Str} {n : ℕ} : t.findInputKeyCode name = some n ↔
      ∃ i < t.count, strcasecmp (keyOf es i).inputKeyName name = true ∧
        (keyOf es i).inputKeyCode = n ∧
        ∀ j < i, strcasecmp (keyOf es j).inputKeyName name = false := by
  rw [InputKeys.findInputKeyCode, h.take_rows hlen, List.find?_map, Option.map_map,
    Option.map_eq_some_iff]
  simp only [List.find?_range_eq_some, List.mem_range, Function.comp_apply, Bool.not_eq_eq_eq_not,
    Bool.not_true]
  constructor
  · rintro ⟨i, ⟨hmatch, hi, hfirst⟩, hcode⟩
    exact ⟨i, hi, hmatch, hcode, hfirst⟩
  · rintro ⟨i, hi, hmatch, hcode, hfirst⟩
    exact ⟨i, ⟨hmatch, hi, hfirst⟩, hcode⟩

theorem Filled.find_eq_none_iff (h : Filled es es.length t) (hlen : es.length ≤ maxKeys)
    {name : Str} : t.findInputKeyCode name = none ↔
      ∀ i < t.count, strcasecmp (keyOf es i).inputKeyName name = false := by
  rw [InputKeys.findInputKeyCode, h.take_rows hlen, List.find?_map, Option.map_map,
    Option.map_eq_none_iff, List.find?_eq_none]
  simp

theorem accepted_lt (hacc : accepted es i = true) : i < es.length := by
  obtain ⟨e, code, he, -, -⟩ := code_of_accepted hacc
  exact (List.getElem?_eq_some_iff.mp he).1

instance (es : List IniEntry) : Decidable (AcceptedFirst es) :=
  decidable_of_iff (∀ j < es.length, ∀ i < j, accepted es j = true → accepted es i = true)
    ⟨fun h i j hij hj => h j (accepted_lt hj) i hij hj, fun h j _ i hij hj => h i j hij hj⟩

instance (es : List IniEntry) : Decidable (NamesApart es) :=
  decidable_of_iff (∀ (i : Fin es.length) (j : Fin es.length), accepted es i = true → i ≠ j →
      strcasecmp es[i].key es[j].key = false) (by
    constructor
    · intro h i j e e' he he' hacc hne
      obtain ⟨hi, rfl⟩ := List.getElem?_eq_some_iff.mp he
      obtain ⟨hj, rfl⟩ := List.getElem?_eq_some_iff.mp he'
      exact h ⟨i, hi⟩ ⟨j, hj⟩ hacc fun heq => hne (congrArg Fin.val heq)
    · intro h i j hacc hne
      exact h i j _ _ (List.getElem?_eq_getElem i.2) (List.getElem?_eq_getElem j.2) hacc
        fun heq => hne (Fin.ext heq))

theorem findInputKeyCode_congr (t : InputKeys) {a b : Str} (h : strcasecmp a b = true) :
    t.findInputKeyCode a = t.findInputKeyCode b := by
  have hmap : a.map tolower = b.map tolower := of_decide_eq_true h
  simp only [InputKeys.findInputKeyCode, strcasecmp, hmap]

/-- In a table that is usable the accepted entries are below the count. -/
theorem Filled.lt_count (h : Filled es es.length t) (hlen : es.length ≤ maxKeys)
    (hnames : ∀ e ∈ es, e.key ≠ []) (huse : t.Usable es) (hacc : accepted es i = true) :
    i < t.count := by
  obtain ⟨e, code, he, hcode, -⟩ := code_of_accepted hacc
  have hfind := (huse i e he).1 code ((h.accepts_iff he).mpr ⟨hcode, hacc⟩)
  obtain ⟨p, hp, hmatch, hpcode, -⟩ := (h.find_eq_some_iff hlen).mp hfind
  have haccp := accepted_of_match (hnames e (List.mem_of_getElem? he)) hmatch
  obtain ⟨e', code', -, hcode', hrow⟩ := code_of_accepted haccp
  rw [hrow] at hpcode
  obtain rfl : code' = code := Fin.ext hpcode
  rwa [accepted_unique hacc haccp hcode hcode']

/-- Keys that can be used leave no second entry of a name that has a row. -/
theorem Filled.namesApart (h : Filled es es.length t) (huse : t.Usable es) : NamesApart es := by
  intro i j e e' he he' hacc hne
  by_contra hsame
  have hsame : strcasecmp e.key e'.key = true := by simpa using hsame
  obtain ⟨e₀, code, he₀, hcode, hrow⟩ := code_of_accepted hacc
  obtain rfl := Option.some.inj (he.symm.trans he₀)
  have hfind := (huse i e he).1 code ((h.accepts_iff he).mpr ⟨hcode, hacc⟩)
  rw [findInputKeyCode_congr t hsame] at hfind
  by_cases haccj : accepted es j = true
  · obtain ⟨e₁, code', -, hcode', -⟩ := code_of_accepted haccj
    have hfind' := (huse j e' he').1 code' ((h.accepts_iff he').mpr ⟨hcode', haccj⟩)
    obtain rfl : code = code' := Fin.ext (Option.some.inj (hfind.symm.trans hfind'))
    exact hne (accepted_unique hacc haccj hcode hcode')
  · have hnone := (huse j e' he').2 fun code' hcode' => haccj ((h.accepts_iff he').mp hcode').2
    rw [hnone] at hfind
    cases hfind

/-- The name of an entry without a row is not found. -/
theorem Filled.find_of_not_accepted (h : Filled es es.length t) (hlen : es.length ≤ maxKeys)
    (hnames : ∀ e ∈ es, e.key ≠ []) (hapart : NamesApart es) {i : ℕ} {e : IniEntry}
    (he : es[i]? = some e) (hacc : ¬ accepted es i = true) : t.findInputKeyCode e.key = none := by
  refine (h.find_eq_none_iff hlen).mpr fun p _ => ?_
  by_contra hmatch
  have hmatch : strcasecmp (keyOf es p).inputKeyName e.key = true := by simpa using hmatch
  have haccp := accepted_of_match (hnames e (List.mem_of_getElem? he)) hmatch
  obtain ⟨e', code, he', -, hrow⟩ := code_of_accepted haccp
  have hne : p ≠ i := by
    rintro rfl
    exact hacc haccp
  rw [hrow, hapart p i e' e he' he haccp hne] at hmatch
  cases hmatch

/-- The table is usable exactly when the accepted entries come first and have names
of their own. -/
theorem Filled.usable_iff (h : Filled es es.length t) (hlen : es.length ≤ maxKeys)
    (hnames : ∀ e ∈ es, e.key ≠ []) : t.Usable es ↔ AcceptedFirst es ∧ NamesApart es := by
  have hcount := lt_countP_iff (accepted es) es.length
  rw [← h.count] at hcount
  constructor
  · intro huse
    have hlt : ∀ i, accepted es i = true → i < t.count := fun i => h.lt_count hlen hnames huse
    exact ⟨fun i j hij hj => hcount.mp (fun i _ => hlt i) i j hij (accepted_lt hj) hj,
      h.namesApart huse⟩
  · rintro ⟨hfirst, hapart⟩ i e he
    have hlt := hcount.mpr fun i j hij _ hj => hfirst i j hij hj
    constructor
    · intro code haccepts
      obtain ⟨hcode, hacc⟩ := (h.accepts_iff he).mp haccepts
      have hrow := keyOf_accepted he hcode hacc
      refine (h.find_eq_some_iff hlen).mpr ⟨i, hlt i (accepted_lt hacc) hacc, ?_, ?_, fun j hj => ?_⟩
      · rw [hrow]
        exact decide_eq_true rfl
      · rw [hrow]
      · obtain ⟨e', code', he', -, hrow'⟩ := code_of_accepted (hfirst j i hj hacc)
        rw [hrow']
        exact hapart j i e' e he' he (hfirst j i hj hacc) hj.ne
    · intro hnone
      have hacc : ¬ accepted es i = true := by
        intro hacc
        obtain ⟨e', code, -, hcode, -⟩ := code_of_accepted hacc
        exact hnone code ((h.accepts_iff he).mpr ⟨hcode, hacc⟩)
      exact h.find_of_not_accepted hlen hnames hapart he hacc

/-! ### Files -/

/-- On a file with these entries in `[InputKeys]`, the keys can be used. -/
def KeydefsUsable (text : Str) (es : List IniEntry) : Prop :=
  ∃ t, getInputKeydefs text = some t ∧ t.Usable es

theorem TablesInv.getKey (h : TablesInv db) {s : SectionRow} (hs : db.psections[sidx]? = some s)
    (he : (Legacy.readSection db sidx)[i]? = some e) :
    inidbGetKeyName db sidx i = some e.key ∧ inidbGetKeyValue db sidx i = some e.value := by
  rw [h.readSection, List.getElem?_map] at he
  obtain ⟨row, hrow, rfl⟩ := Option.map_eq_some_iff.mp he
  have hlt : i < s.npairs := by
    rw [(h.rows sidx s hs).count]
    exact (List.getElem?_eq_some_iff.mp hrow).1
  rw [inidbGetKeyName, inidbGetKeyValue, keyRow_eq hs (h.rows sidx s hs) hlt, hrow]
  exact ⟨rfl, rfl⟩

theorem TablesInv.length_readSection (h : TablesInv db) {s : SectionRow}
    (hs : db.psections[sidx]? = some s) :
    (Legacy.readSection db sidx).length = inidbGetNumberOfKeys db sidx := by
  rw [h.readSection, List.length_map, ← (h.rows sidx s hs).count, inidbGetNumberOfKeys, hs]
  rfl

theorem clean_readSection {text : Str} (hopen : inidbOpen text = some db) :
    ∀ e ∈ readSection db sidx, e.key ≠ [] ∧ e.value ≠ [] := by
  rw [(tablesInv_open hopen).readSection]
  intro e he
  obtain ⟨row, hrow, rfl⟩ := List.mem_map.mp he
  have hclean := clean_open hopen row (List.mem_of_mem_filter hrow)
  exact ⟨hclean.name, hclean.value⟩

/-- The table of a file, if its names fit. -/
theorem getInputKeydefs_takes {text : Str} (hopen : inidbOpen text = some db)
    (hfind : inidbFindSection db "InputKeys".toList = some sidx)
    (hlen : (readSection db sidx).length ≤ maxKeys)
    (hshort : ∀ e ∈ readSection db sidx, e.key.length < maxName) :
    Runs.Takes (getInputKeydefs text)
      (IniMemory.Roomy text ∧ ∀ e ∈ readSection db sidx, e.value.length < maxPath)
      (Filled (readSection db sidx) (readSection db sidx).length) := by
  have hinv := tablesInv_open hopen
  obtain ⟨hlt, -, -⟩ := List.findIdx?_eq_some_iff_getElem.mp hfind
  have hs := List.getElem?_eq_getElem hlt
  have hrun : getInputKeydefs text = if (IniMemory.parseIniFile text).isSome then
      (List.range (readSection db sidx).length).foldlM (keydefStep db sidx) {} else none := by
    simp only [getInputKeydefs, hopen, hfind, ← hinv.length_readSection hs, Nat.min_eq_left hlen]
  rw [hrun, ← (IniMemory.parseIniFile_takes text).isSome_iff]
  have hentries : ∀ k < (readSection db sidx).length, ∃ e, (readSection db sidx)[k]? = some e ∧
      inidbGetKeyName db sidx k = some e.key ∧ inidbGetKeyValue db sidx k = some e.value ∧
      e.key ≠ [] ∧ e.value ≠ [] ∧ e.key.length < maxName := by
    intro k hk
    have he := List.getElem?_eq_getElem hk
    have hmem := List.getElem_mem hk
    obtain ⟨hkey, hval⟩ := hinv.getKey hs he
    obtain ⟨hname, hvalue⟩ := clean_readSection hopen _ hmem
    exact ⟨_, he, hkey, hval, hname, hvalue, hshort _ hmem⟩
  have hloop := filled_foldlM (readSection db sidx).length hentries
  have hvalues : (∀ k < (readSection db sidx).length, ∀ e, (readSection db sidx)[k]? = some e →
      e.value.length < maxPath) ↔ ∀ e ∈ readSection db sidx, e.value.length < maxPath := by
    constructor
    · intro h e he
      obtain ⟨k, hk, rfl⟩ := List.mem_iff_getElem.mp he
      exact h k hk _ (List.getElem?_eq_getElem hk)
    · exact fun h k _ e he => h e (List.mem_of_getElem? he)
  rw [hvalues] at hloop
  split_ifs with hroom
  · rwa [and_iff_right hroom]
  · exact Runs.takes_none fun h => hroom h.1

/-- Two keys, and an entry with a code that is in use after them. -/
def keydefsText : Str := "[InputKeys]\nA = 30\nB = 0x30\nC = 30\n".toList

end Legacy
end Launchpad
