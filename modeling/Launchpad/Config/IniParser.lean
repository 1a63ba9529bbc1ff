/-
# INI documents

`IniDocument` and `IniParser` of `src/config/ini_parser.cpp`. Section and key
names are compared in lower case; a section keeps its entries in the order they
are read, and a lookup finds the first of a key. Opening a file is the only way
parsing fails, so a parsed text is a document outright.
-/
import Launchpad.Units
import Mathlib.Data.List.AList
import Mathlib.Data.List.DropRight
import Mathlib.Tactic.SplitIfs

namespace Launchpad

structure IniEntry where
  key : Str
  value : Str
  deriving DecidableEq

structure IniDocument where
  sections : AList fun _ : Str => List IniEntry
  sectionOrder : List Str

/-- The value as an `int`, if it is one. -/
def toInt (value : ℤ) : Option ℤ :=
  if -2147483648 ≤ value ∧ value ≤ 2147483647 then some value else none

/-- `std::stoi` in base 10: `none` where it throws. -/
def stoi (s : Str) : Option ℤ :=
  let s := s.dropWhile isspace
  let negative := s.head? = some '-'
  let s := if negative ∨ s.head? = some '+' then s.drop 1 else s
  let digits := s.takeWhile Char.isDigit
  let n : ℕ := digits.foldl (fun n c => 10 * n + (c.toNat - '0'.toNat)) 0
  if digits = [] then none else toInt (if negative then -n else n)

namespace IniDocument

def new : IniDocument := ⟨∅, []⟩

def normalizeKey (s : Str) : Str := s.map tolower

def addEntry (doc : IniDocument) (sect key value : Str) : IniDocument :=
  let normSec := normalizeKey sect
  { sectionOrder :=
      if normSec ∈ doc.sections then doc.sectionOrder else doc.sectionOrder ++ [sect]
    sections :=
      doc.sections.insert normSec ((doc.sections.lookup normSec).getD [] ++ [⟨key, value⟩]) }

def hasSection (doc : IniDocument) (sect : Str) : Bool := normalizeKey sect ∈ doc.sections

def getSectionEntries (doc : IniDocument) (sect : Str) : List IniEntry :=
  (doc.sections.lookup (normalizeKey sect)).getD []

def getString (doc : IniDocument) (sect key : Str) : Option Str :=
  match doc.sections.lookup (normalizeKey sect) with
  | none => none
  | some entries => (entries.find? fun e => normalizeKey e.key = normalizeKey key).map IniEntry.value

def getInt (doc : IniDocument) (sect key : Str) (defaultValue : ℤ) : ℤ :=
  match doc.getString sect key with
  | none => defaultValue
  | some value => (stoi value).getD defaultValue

def getSectionNames (doc : IniDocument) : List Str := doc.sectionOrder

end IniDocument

/-! ### Parsing -/

namespace IniParser

def trim (str : Str) : Str := (str.dropWhile isspace).rdropWhile isspace

def isComment (c : Char) : Bool := c = ';' ∨ c = '#'

/-- One line, trimmed: the document and the current section after it. -/
def parseLineEntry (doc : IniDocument) (currentSection line : Str) : IniDocument × Str :=
  if line = [] ∨ line.head?.any isComment then (doc, currentSection)
  else if line.head? = some '[' ∧ line.getLast? = some ']' then
    (doc, trim ((line.drop 1).take (line.length - 2)))
  else if '=' ∉ line then (doc, currentSection)
  else
    let key := trim (line.takeWhile (· ≠ '='))
    let value := trim ((line.dropWhile (· ≠ '=')).drop 1)
    (doc.addEntry currentSection key value, currentSection)

/-- The lines of the text are parsed in order. What follows the last newline is
a line too; when it is empty the source does not visit it, and it has no entry. -/
def parseString (content : Str) : IniDocument :=
  ((content.splitOnP (· = '\n')).foldl (fun s line => parseLineEntry s.1 s.2 (trim line))
    (IniDocument.new, "default".toList)).1

/-! ### Trimming -/

theorem dropWhile_append_space {p : Char → Bool} {space : Str} (h : ∀ c ∈ space, p c = true) (s : Str) :
    (space ++ s).dropWhile p = s.dropWhile p := by
  rw [List.dropWhile_append, List.dropWhile_eq_nil_iff.mpr h]
  rfl

/-- Whitespace before a text does not matter. -/
theorem trim_space_append {space : Str} (h : ∀ c ∈ space, isspace c = true) (s : Str) :
    trim (space ++ s) = trim s := by
  rw [trim, dropWhile_append_space h]
  rfl

theorem rdropWhile_append_space {p : Char → Bool} {space : Str} (h : ∀ c ∈ space, p c = true) (s : Str) :
    (s ++ space).rdropWhile p = s.rdropWhile p := by
  rw [List.rdropWhile, List.rdropWhile, List.reverse_append, dropWhile_append_space]
  intro c hc
  exact h c (List.mem_reverse.mp hc)

/-- Nor does whitespace after it. -/
theorem trim_append_space {space : Str} (h : ∀ c ∈ space, isspace c = true) (s : Str) :
    trim (s ++ space) = trim s := by
  unfold trim
  rw [List.dropWhile_append]
  split_ifs with hs
  · rw [List.isEmpty_iff.mp hs, List.dropWhile_eq_nil_iff.mpr h]
  · exact rdropWhile_append_space h _

theorem trim_space {space : Str} (h : ∀ c ∈ space, isspace c = true) : trim space = [] := by
  rw [trim, List.dropWhile_eq_nil_iff.mpr h]
  rfl

/-- A text that ends in no whitespace ends there. -/
theorem rdropWhile_append_cons {p : Char → Bool} {c : Char} (hc : p c = false) (s t : Str) :
    (s ++ c :: t).rdropWhile p = s ++ c :: t.rdropWhile p := by
  simp only [List.rdropWhile, List.reverse_append, List.reverse_cons, List.append_assoc]
  rw [List.dropWhile_append]
  split_ifs with ht
  · rw [List.isEmpty_iff.mp ht]
    simp [hc]
  · simp

/-- Around something that is no whitespace, the two sides are trimmed apart. -/
theorem trim_append_cons {c : Char} (hc : isspace c = false) (s t : Str) :
    trim (s ++ c :: t) = s.dropWhile isspace ++ c :: t.rdropWhile isspace := by
  have hdrop : (s ++ c :: t).dropWhile isspace = s.dropWhile isspace ++ c :: t := by
    rw [List.dropWhile_append]
    split_ifs with hs
    · rw [List.isEmpty_iff.mp hs]
      simp [hc]
    · rfl
  rw [trim, hdrop, rdropWhile_append_cons hc]

theorem trim_dropWhile (s : Str) : trim (s.dropWhile isspace) = trim s := by
  rw [trim, List.dropWhile_idempotent]
  rfl

theorem trim_rdropWhile (s : Str) : trim (s.rdropWhile isspace) = trim s := by
  have hspace : ∀ c ∈ s.rtakeWhile isspace, isspace c = true := fun c hc =>
    List.mem_rtakeWhile_imp hc
  rw [← trim_append_space hspace, List.rdropWhile_append_rtakeWhile]

end IniParser
end Launchpad
