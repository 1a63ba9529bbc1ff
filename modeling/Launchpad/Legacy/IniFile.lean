/-
# The legacy INI files

`src/inifile.c`: a scanner over the text in memory, which ends the strings it
keeps with a zero byte in place, and the tables it fills, read back by index. A
pointer into the text is the text from there on, with a zero byte at its end;
the strings the tables point to are kept as texts, and what points into a table
is an index. The tables have a row for every four characters of the text, which is
enough for the texts of interest; they are taken to stay in place when they are
shrunk to their final size.

The loop of `parse_ini_file` ends: a round either moves the pointer or ends it
(`parseRound_moves`). So it is run with fuel for every character of the text,
more of which would change nothing (`parseLoop_fuel`).
-/
import Launchpad.Config.IniParser

namespace Launchpad
namespace Legacy

/-! ### Scanning -/

/-- The character a pointer is at. -/
def peek (p : Str) : Char := p.headD '\x00'

def skipws (p : Str) : Str := p.dropWhile fun c => c = ' ' ∨ c = '\t' ∨ c = '\r'

def skipline (p : Str) : Str :=
  let p := p.dropWhile fun c => c ≠ '\x00' ∧ c ≠ '\n'
  if peek p = '\n' then p.drop 1 else p

/-- The loop of `parse_section_name` with the length counted so far. -/
def sectionNameLoop : ℤ → Str → ℤ
  | _, [] => 0
  | len, c :: p =>
    if c = ']' ∨ len = 0 then len
    else if c = '\n' ∨ c = '\x00' then 0
    else if c = '\r' then sectionNameLoop len p
    else sectionNameLoop (if len = -1 then 1 else len + 1) p

/-- The length of a section name; -1 if it is empty, 0 if it has no end. -/
def parseSectionName (p : Str) : ℤ := sectionNameLoop (-1) p

/-- From offset `q` back over blanks, and the length of what is left; `char` is
unsigned on the device. -/
def backUp (p : Str) : ℕ → ℕ
  | 0 => if (peek p).toNat > 32 then 1 else 0
  | q + 1 => if (peek (p.drop (q + 1))).toNat ≤ 32 then backUp p q else q + 2

/-- The length of a value without the blanks that follow it. -/
def parseKeyValue (p : Str) : ℕ :=
  let n := (p.takeWhile fun c => c ≠ '\n' ∧ c ≠ '\r' ∧ c ≠ '\x00').length
  if n > 0 then backUp p n else 0

/-- The length of a key without the blanks before its `=`; 0 if there is none. -/
def parseKeyName (p : Str) : ℕ :=
  let n := (p.takeWhile fun c => c ≠ '=' ∧ c ≠ '\n' ∧ c ≠ '\r' ∧ c ≠ '\x00').length
  if peek (p.drop n) = '=' then if n > 0 then backUp p (n - 1) else 0 else 0

/-! ### The tables -/

/-- `section_row_t`; `ppairs` is an index into the keys. -/
structure SectionRow where
  psname : Str
  ppairs : Option ℕ := none
  npairs : ℕ := 0
  deriving DecidableEq

/-- `key_row_t`; `psect` is an index into the sections. -/
structure KeyRow where
  pkname : Str
  pkvalue : Str
  psect : ℕ
  deriving DecidableEq

/-- `dbdesc_t` while it is filled, with the current section of the parser. -/
structure IniDb where
  psections : List SectionRow := []
  pkeys : List KeyRow := []
  pcursect : ℕ := 0
  deriving DecidableEq

def strcasecmp (s t : Str) : Bool := s.map tolower = t.map tolower

namespace IniDb

/-- A section name is found: the first section is compared for every one there
is, so it is the current one, or a new one is. -/
def enterSection (db : IniDb) (name : Str) : IniDb :=
  if db.psections.head?.any fun s => strcasecmp s.psname name then { db with pcursect := 0 }
  else { db with
    psections := db.psections ++ [{ psname := name }]
    pcursect := db.psections.length }

/-- A key is found; without any section, it is in the default one. -/
def addKey (db : IniDb) (name value : Str) : IniDb :=
  let db := if db.psections = [] then { db with psections := [{ psname := "Default".toList }], pcursect := 0 }
    else db
  { db with
    pkeys := db.pkeys ++ [⟨name, value, db.pcursect⟩]
    psections := db.psections.modify db.pcursect fun s =>
      { s with ppairs := some (s.ppairs.getD db.pkeys.length), npairs := s.npairs + 1 } }

end IniDb

/-! ### Parsing -/

/-- A pointer at a section name, past its `[`. -/
def parseSection (db : IniDb) (p : Str) : IniDb × Str :=
  let len := parseSectionName p
  if len > 0 then (db.enterSection (p.take len.toNat), skipline (p.drop (len.toNat + 1)))
  else (db, skipline p)

/-- A pointer at the value of a key. -/
def parseValue (db : IniDb) (name p : Str) : IniDb × Str :=
  let len := parseKeyValue p
  let (value, p) := if len > 0 then (p.take len, p.drop (len + 1)) else ("<empty>".toList, p)
  (db.addKey name value, if peek p = '\n' then skipline p else p)

/-- A pointer at a key. -/
def parseKey (db : IniDb) (p : Str) : IniDb × Str :=
  let len := parseKeyName p
  if len > 0 then
    let q := p.drop len
    let q := if peek q ≠ '=' then skipws q else q
    parseValue db (p.take len) (skipws (q.drop 1))
  else (db, skipline p)

/-- A round of the loop of `parse_ini_file`. -/
def parseRound (db : IniDb) (p : Str) : IniDb × Str :=
  let p := skipws p
  if peek p = '\n' ∨ peek p = '\r' then (db, p.drop 1)
  else if peek p = '[' then parseSection db (p.drop 1)
  else if peek p = ';' ∨ peek p = '#' then (db, skipline p)
  else parseKey db p

/-- The loop, which ends at a zero byte. -/
def parseLoop : ℕ → IniDb → Str → IniDb
  | 0, db, _ => db
  | fuel + 1, db, p =>
    let (db, p) := parseRound db p
    if peek p = '\x00' then db else parseLoop fuel db p

def parseIniFile (text : Str) : IniDb := parseLoop (text.length + 1) {} text

/-- `inidb_open` on a file with that text: without a key there is no database. -/
def inidbOpen (text : Str) : Option IniDb :=
  let db := parseIniFile text
  if db.pkeys = [] then none else some db

/-- What the text at a pointer adds to the tables. -/
def parseFrom (db : IniDb) (p : Str) : IniDb := parseLoop (p.length + 1) db p

/-! ### The loop ends -/

theorem length_skipws_le (p : Str) : (skipws p).length ≤ p.length :=
  (List.dropWhile_suffix _).length_le

theorem length_skipline_le (p : Str) : (skipline p).length ≤ p.length := by
  have hdrop : (p.dropWhile fun c => c ≠ '\x00' ∧ c ≠ '\n').length ≤ p.length :=
    (List.dropWhile_suffix _).length_le
  simp only [skipline]
  split_ifs
  · rw [List.length_drop]
    omega
  · exact hdrop

/-- A line that does not end at once is left. -/
theorem length_skipline_lt {p : Str} (h : peek (skipline p) ≠ '\x00') : (skipline p).length < p.length := by
  cases p with
  | nil => exact absurd rfl h
  | cons c p =>
    by_cases hc : c ≠ '\x00' ∧ c ≠ '\n'
    · have hskip : skipline (c :: p) = skipline p := by
        simp only [skipline]
        rw [List.dropWhile_cons_of_pos (by simpa using hc)]
      rw [hskip]
      exact Nat.lt_succ_of_le (length_skipline_le p)
    · have hstay : (c :: p).dropWhile (fun c => c ≠ '\x00' ∧ c ≠ '\n') = c :: p :=
        List.dropWhile_cons_of_neg (by simpa using hc)
      simp only [skipline, hstay] at h ⊢
      split_ifs at h ⊢ with hline
      · exact Nat.lt_succ_self _
      · exact absurd (show c = '\x00' by by_contra hne; exact hc ⟨hne, hline⟩) h

theorem length_parseSection_le (db : IniDb) (p : Str) : (parseSection db p).2.length ≤ p.length := by
  simp only [parseSection]
  split_ifs
  · refine (length_skipline_le _).trans ?_
    rw [List.length_drop]
    omega
  · exact length_skipline_le p

theorem length_parseValue_le (db : IniDb) (name p : Str) :
    (parseValue db name p).2.length ≤ p.length := by
  have hline : ∀ q : Str, (if peek q = '\n' then skipline q else q).length ≤ q.length := by
    intro q
    split_ifs
    · exact length_skipline_le q
    · exact le_rfl
  by_cases hvalue : parseKeyValue p > 0
  · simp only [parseValue, if_pos hvalue]
    refine (hline _).trans ?_
    rw [List.length_drop]
    omega
  · simp only [parseValue, if_neg hvalue]
    exact hline p

theorem pos_of_parseKeyName {p : Str} (h : 0 < parseKeyName p) : p ≠ [] := by
  rintro rfl
  exact absurd h (by decide)

theorem length_parseKey_lt {db : IniDb} {p : Str} (h : peek (parseKey db p).2 ≠ '\x00') :
    (parseKey db p).2.length < p.length := by
  simp only [parseKey] at h ⊢
  by_cases hlen : parseKeyName p > 0
  · have hp : 0 < p.length := List.length_pos_iff.mpr (pos_of_parseKeyName hlen)
    rw [if_pos hlen]
    refine (length_parseValue_le _ _ _).trans_lt ((length_skipws_le _).trans_lt ?_)
    have hskip := length_skipws_le (p.drop (parseKeyName p))
    rw [List.length_drop]
    split_ifs
    · rw [List.length_drop] at hskip
      omega
    · rw [List.length_drop]
      omega
  · rw [if_neg hlen] at h ⊢
    exact length_skipline_lt h

/-- A round moves the pointer, or leaves it at a zero byte. -/
theorem parseRound_moves {db : IniDb} {p : Str} (h : peek (parseRound db p).2 ≠ '\x00') :
    (parseRound db p).2.length < p.length := by
  refine lt_of_lt_of_le ?_ (length_skipws_le p)
  have hpos : ∀ c : Char, c ≠ '\x00' → peek (skipws p) = c → 0 < (skipws p).length := by
    intro c hc hpeek
    apply List.length_pos_iff.mpr
    intro hnil
    rw [hnil] at hpeek
    exact hc hpeek.symm
  simp only [parseRound] at h ⊢
  split_ifs at h ⊢ with hend hsection hcomment
  · have hlt : 0 < (skipws p).length := by
      rcases hend with hend | hend
      · exact hpos _ (by decide) hend
      · exact hpos _ (by decide) hend
    rw [List.length_drop]
    omega
  · have hlt := hpos _ (by decide) hsection
    have hle := length_parseSection_le db ((skipws p).drop 1)
    rw [List.length_drop] at hle
    omega
  · exact length_skipline_lt h
  · exact length_parseKey_lt h

/-- More fuel changes nothing. -/
theorem parseLoop_fuel : ∀ (n m : ℕ) (db : IniDb) (p : Str), p.length < n → p.length < m →
    parseLoop n db p = parseLoop m db p := by
  intro n
  induction n with
  | zero => exact fun m db p hn _ => absurd hn (Nat.not_lt_zero _)
  | succ n ih =>
    intro m db p hn hm
    cases m with
    | zero => exact absurd hm (Nat.not_lt_zero _)
    | succ m =>
      simp only [parseLoop]
      by_cases hend : peek (parseRound db p).2 = '\x00'
      · rw [if_pos hend, if_pos hend]
      · have hlt := parseRound_moves hend
        rw [if_neg hend, if_neg hend]
        exact ih m _ _ (by omega) (by omega)

/-- A round of the loop, then the rest of the text. -/
theorem parseFrom_eq (db : IniDb) (p : Str) : parseFrom db p =
    if peek (parseRound db p).2 = '\x00' then (parseRound db p).1
    else parseFrom (parseRound db p).1 (parseRound db p).2 := by
  rw [parseFrom, parseLoop]
  by_cases hend : peek (parseRound db p).2 = '\x00'
  · rw [if_pos hend]
    exact if_pos hend
  · rw [if_neg hend]
    exact (if_neg hend).trans (parseLoop_fuel _ _ _ _ (parseRound_moves hend) (Nat.lt_succ_self _))

/-! ### Reading back -/

def inidbFindSection (db : IniDb) (name : Str) : Option ℕ :=
  db.psections.findIdx? fun s => strcasecmp name s.psname

/-- The row of key `kidx` of a section, as `inidb_get_key_name` and
`inidb_get_key_value` look for it: from the section's first key on. -/
def keyRow (db : IniDb) (sidx kidx : ℕ) : Option KeyRow :=
  (db.psections[sidx]?).bind fun s =>
    if kidx < s.npairs then
      ((db.pkeys.drop (s.ppairs.getD 0)).filter fun row => row.psect = sidx)[kidx]?
    else none

def inidbGetNumberOfKeys (db : IniDb) (sidx : ℕ) : ℕ :=
  ((db.psections[sidx]?).map SectionRow.npairs).getD 0

def inidbGetKeyName (db : IniDb) (sidx kidx : ℕ) : Option Str := (keyRow db sidx kidx).map KeyRow.pkname

def inidbGetKeyValue (db : IniDb) (sidx kidx : ℕ) : Option Str := (keyRow db sidx kidx).map KeyRow.pkvalue

/-- The pairs of a section, read back key by key. -/
def readSection (db : IniDb) (sidx : ℕ) : List IniEntry :=
  (List.range (inidbGetNumberOfKeys db sidx)).filterMap fun kidx =>
    match inidbGetKeyName db sidx kidx, inidbGetKeyValue db sidx kidx with
    | some key, some value => some ⟨key, value⟩
    | _, _ => none

/-- The pairs a text has for a section. -/
def pairsOf (text name : Str) : List IniEntry :=
  match inidbOpen text with
  | none => []
  | some db => ((inidbFindSection db name).map (readSection db)).getD []

end Legacy
end Launchpad
