/-
# The legacy INI scanner on its memory

`parse_ini_file` again, this time as it works: pointers are positions in the
buffer `inidb_open` fills (the bytes of the file and a zero byte), the strings
of the tables are ended in place, and the two tables have the number of rows
`create_db_structure` estimates. Every read and every write is checked, and a
step is undefined (`none`) when it leaves the buffer or the tables.
-/
import Launchpad.Legacy.IniFile

namespace Launchpad
namespace Legacy

/-- A pointer to a string: into the buffer, or to a constant of the program. -/
inductive StrPtr
  | constant (s : Str)
  | buffer (p : ℕ)
  deriving DecidableEq

structure SectionCell where
  psname : StrPtr
  ppairs : Option ℕ := none
  npairs : ℕ := 0
  deriving DecidableEq

structure KeyCell where
  pkname : StrPtr
  pkvalue : StrPtr
  psect : ℕ
  deriving DecidableEq

/-- The buffer and the rows in use of the two tables; `pcursect` is `NULL` at first. -/
structure IniMemory where
  pbuf : List Char
  psections : List SectionCell := []
  pkeys : List KeyCell := []
  pcursect : Option ℕ := none
  deriving DecidableEq

namespace IniMemory

/-- The size of the file; the buffer has one byte more. -/
def bufsize (m : IniMemory) : ℕ := m.pbuf.length - 1

/-- The rows of the section table. -/
def nsects (m : IniMemory) : ℕ := m.bufsize / "[x]\n".length

/-- The rows of the key table. -/
def npairs (m : IniMemory) : ℕ := m.bufsize / "a=b\n".length

/-! ### Scanning -/

/-- How many characters there are before the first that fails the test. -/
def scan (f : Char → Bool) : List Char → Option ℕ
  | [] => none
  | c :: cs => if f c then (scan f cs).map (· + 1) else some 0

variable (m : IniMemory)

/-- The first position from `p` on whose character fails the test. -/
def scanFrom (f : Char → Bool) (p : ℕ) : Option ℕ := (scan f (m.pbuf.drop p)).map (p + ·)

/-- `*p = c`. -/
def store (p : ℕ) (c : Char) : Option IniMemory :=
  if p < m.pbuf.length then some { m with pbuf := m.pbuf.set p c } else none

def skipws (p : ℕ) : Option ℕ := m.scanFrom (fun c => c = ' ' ∨ c = '\t' ∨ c = '\r') p

def skipline (p : ℕ) : Option ℕ := do
  let p ← m.scanFrom (fun c => c ≠ '\x00' ∧ c ≠ '\n') p
  let c ← m.pbuf[p]?
  return if c = '\n' then p + 1 else p

/-- The loop of `parse_section_name` with the length counted so far. -/
def sectionNameLoop : ℤ → List Char → Option ℤ
  | _, [] => none
  | len, c :: p =>
    if c = ']' ∨ len = 0 then some len
    else if c = '\n' ∨ c = '\x00' then some 0
    else if c = '\r' then sectionNameLoop len p
    else sectionNameLoop (if len = -1 then 1 else len + 1) p

def parseSectionName (p : ℕ) : Option ℤ := sectionNameLoop (-1) (m.pbuf.drop p)

/-- From `p + q` back over blanks, but not before `p`. -/
def backUp (p : ℕ) : ℕ → Option ℕ
  | 0 => do
    let c ← m.pbuf[p]?
    return if c.toNat > 32 then 1 else 0
  | q + 1 => do
    let c ← m.pbuf[p + (q + 1)]?
    if c.toNat ≤ 32 then backUp p q else return q + 2

def parseKeyValue (p : ℕ) : Option ℕ := do
  let q ← m.scanFrom (fun c => c ≠ '\n' ∧ c ≠ '\r' ∧ c ≠ '\x00') p
  if q > p then m.backUp p (q - p) else return 0

def parseKeyName (p : ℕ) : Option ℕ := do
  let q ← m.scanFrom (fun c => c ≠ '=' ∧ c ≠ '\n' ∧ c ≠ '\r' ∧ c ≠ '\x00') p
  let c ← m.pbuf[q]?
  if c = '=' then
    if q > p then m.backUp p (q - 1 - p) else return 0
  else return 0

/-- The characters from a pointer on. -/
def stringAt : StrPtr → List Char
  | .constant s => s ++ ['\x00']
  | .buffer p => m.pbuf.drop p

/-- `strcasecmp` is zero. -/
def strcasecmp : List Char → List Char → Option Bool
  | c :: s, d :: t =>
    if tolower c ≠ tolower d then some false
    else if c = '\x00' then some true
    else strcasecmp s t
  | _, _ => none

/-! ### The tables -/

/-- The loop over the sections compares the name with the first one every time. -/
def foundSection (psecname : ℕ) : Option Bool :=
  match m.psections.head? with
  | none => some false
  | some s => strcasecmp (m.stringAt s.psname) (m.stringAt (.buffer psecname))

/-- The current section for a name that has been ended. -/
def enterSection (psecname : ℕ) : Option IniMemory := do
  let found ← m.foundSection psecname
  if found then return { m with pcursect := some 0 }
  else if m.psections.length < m.nsects then
    return { m with
      psections := m.psections ++ [{ psname := .buffer psecname }]
      pcursect := some m.psections.length }
  else none

def applyDefaultSection : Option IniMemory :=
  if m.psections = [] then
    if 0 < m.nsects then
      some { m with psections := [{ psname := .constant "Default".toList }], pcursect := some 0 }
    else none
  else some m

def addKey (pname : ℕ) (pval : StrPtr) : Option IniMemory := do
  let m ← m.applyDefaultSection
  let cur ← m.pcursect
  if m.pkeys.length < m.npairs ∧ cur < m.psections.length then
    return { m with
      pkeys := m.pkeys ++ [⟨.buffer pname, pval, cur⟩]
      psections := m.psections.modify cur fun s =>
        { s with ppairs := some (s.ppairs.getD m.pkeys.length), npairs := s.npairs + 1 } }
  else none

/-! ### Parsing -/

/-- `p` is past the `[`. -/
def parseSection (p : ℕ) : Option (IniMemory × ℕ) := do
  let len ← m.parseSectionName p
  if len > 0 then
    let m ← m.store (p + len.toNat) '\x00'
    let m ← m.enterSection p
    let p ← m.skipline (p + (len.toNat + 1))
    return (m, p)
  else
    let p ← m.skipline p
    return (m, p)

/-- The value of the key at `pname`, and the line feed that follows it. -/
def parseValue (pname p : ℕ) : Option (IniMemory × ℕ) := do
  let len ← m.parseKeyValue p
  if len > 0 then
    let m ← m.store (p + len) '\x00'
    let m ← m.addKey pname (.buffer p)
    let c ← m.pbuf[p + (len + 1)]?
    let p ← if c = '\n' then m.skipline (p + (len + 1)) else some (p + (len + 1))
    return (m, p)
  else
    let m ← m.addKey pname (.constant "<empty>".toList)
    let c ← m.pbuf[p]?
    let p ← if c = '\n' then m.skipline p else some p
    return (m, p)

/-- From the end of a key over its equality sign to the value. -/
def pastEquals (p : ℕ) : Option ℕ := do
  let c ← m.pbuf[p]?
  let q ← if c ≠ '=' then m.skipws p else some p
  m.skipws (q + 1)

def parseKey (p : ℕ) : Option (IniMemory × ℕ) := do
  let len ← m.parseKeyName p
  if len > 0 then
    let q ← m.pastEquals (p + len)
    let m ← m.store (p + len) '\x00'
    m.parseValue p q
  else
    let p ← m.skipline p
    return (m, p)

/-- A round of the loop of `parse_ini_file`. -/
def parseRound (p : ℕ) : Option (IniMemory × ℕ) := do
  let p ← m.skipws p
  let c ← m.pbuf[p]?
  if c = '\n' ∨ c = '\r' then return (m, p + 1)
  else if c = '[' then m.parseSection (p + 1)
  else if c = ';' ∨ c = '#' then
    let p ← m.skipline p
    return (m, p)
  else m.parseKey p

/-- The loop of `parse_ini_file`; without fuel it has not ended. -/
def parseLoop : ℕ → IniMemory → ℕ → Option IniMemory
  | 0, _, _ => none
  | fuel + 1, m, p => do
    let (m, p) ← m.parseRound p
    let c ← m.pbuf[p]?
    if c ≠ '\x00' ∧ p < m.bufsize then parseLoop fuel m p else return m

/-- `inidb_open` as far as `parse_ini_file` on a file with that text. -/
def parseIniFile (text : Str) : Option IniMemory :=
  parseLoop (text.length + 1) { pbuf := text ++ ['\x00'] } 0

end IniMemory

end Legacy
end Launchpad
