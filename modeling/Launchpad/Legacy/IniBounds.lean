/-
# A round of the legacy INI scanner

The strings of the tables are ended in place, by zero bytes behind the pointer,
so a memory goes on standing for the tables of texts (`Tables`) and for the text
not read yet (`Holds`). A round is taken exactly when the rows it adds are inside
the tables and it does not read a value up to the last character of the file:
then the pointer has left the buffer (`Holds.parseRound`).
-/
import Launchpad.Runs
import Launchpad.Legacy.IniScan

namespace Launchpad
namespace Legacy
namespace IniMemory

open Runs (Takes takes_some takes_none)

variable {m : IniMemory} {p : ℕ} {s t : Str}

/-! ### Strings ended in place -/

/-- The string of a pointer, which ends before `pos`. -/
def Reads (buf : List Char) (pos : ℕ) : StrPtr → Str → Prop
  | .constant t, name => t = name ∧ '\x00' ∉ name
  | .buffer q, name => q + name.length < pos ∧ '\x00' ∉ name ∧ name ++ ['\x00'] <+: buf.drop q

variable {buf : List Char} {pos w : ℕ} {ptr : StrPtr} {name : Str}

theorem Reads.mono (h : Reads buf pos ptr name) {pos' : ℕ} (hle : pos ≤ pos') :
    Reads buf pos' ptr name := by
  cases ptr with
  | constant t => exact h
  | buffer q => exact ⟨h.1.trans_le hle, h.2⟩

/-- Writing at the pointer or behind it leaves the string as it is. -/
theorem Reads.set (h : Reads buf pos ptr name) (hle : pos ≤ w) (c : Char) :
    Reads (buf.set w c) pos ptr name := by
  cases ptr with
  | constant t => exact h
  | buffer q =>
    obtain ⟨hlt, hmem, rest, hrest⟩ := h
    refine ⟨hlt, hmem, rest.set (w - q - (name.length + 1)) c, ?_⟩
    rw [List.drop_set, if_neg (by omega), ← hrest, List.set_append_right _ _ (by simp; omega)]
    simp

/-- A name that has just been ended. -/
theorem At.reads (h : At m p s) {k : ℕ} (hk : k ≤ s.length) (hmem : '\x00' ∉ s.take k) :
    Reads (m.pbuf.set (p + k) '\x00') (p + k + 1) (.buffer p) (s.take k) := by
  have hlen : (s.take k).length = k := List.length_take_of_le hk
  have hlt : k < (s ++ ['\x00']).length := by
    rw [List.length_append, List.length_singleton]
    omega
  refine ⟨by omega, hmem, (s ++ ['\x00']).drop (k + 1), ?_⟩
  rw [List.drop_set, if_neg (by omega), h, Nat.add_sub_cancel_left,
    List.set_eq_take_append_cons_drop, if_pos hlt, List.take_append_of_le_length hk]
  simp

theorem At.set (h : At m pos s) (hw : w < pos) (c : Char) :
    At { m with pbuf := m.pbuf.set w c } pos s := by
  unfold At at h ⊢
  rw [List.drop_set, if_pos hw]
  exact h

/-- What is at a pointer is in the buffer alone. -/
theorem At.of_pbuf {m' : IniMemory} (h : At m p s) (hbuf : m'.pbuf = m.pbuf) : At m' p s := by
  unfold At at h ⊢
  rw [hbuf]
  exact h

theorem At.store (h : At m p s) {k : ℕ} (hk : k ≤ s.length) (c : Char) :
    m.store (p + k) c = some { m with pbuf := m.pbuf.set (p + k) c } := by
  have hlen := h.length
  exact if_pos (by omega)

theorem Reads.stringAt (h : Reads m.pbuf pos ptr name) :
    '\x00' ∉ name ∧ ∃ rest, m.stringAt ptr = name ++ '\x00' :: rest := by
  cases ptr with
  | constant t =>
    obtain ⟨rfl, hmem⟩ := h
    exact ⟨hmem, [], rfl⟩
  | buffer q =>
    obtain ⟨-, hmem, rest, hrest⟩ := h
    refine ⟨hmem, rest, ?_⟩
    rw [IniMemory.stringAt, ← hrest]
    simp

theorem strcasecmp_append : ∀ {a b : Str}, '\x00' ∉ a → '\x00' ∉ b → ∀ r t : List Char,
    strcasecmp (a ++ '\x00' :: r) (b ++ '\x00' :: t) = some (Legacy.strcasecmp a b)
  | [], [], _, _, _, _ => by simp [strcasecmp, Legacy.strcasecmp]
  | [], d :: b, _, hb, _, _ => by
    have hd : tolower d ≠ '\x00' := fun he => hb (by simp [eq_of_tolower_eq rfl he])
    have hne : tolower '\x00' ≠ tolower d := fun he => hd he.symm
    simp [strcasecmp, Legacy.strcasecmp, hne]
  | c :: a, [], ha, _, _, _ => by
    have hc : tolower c ≠ '\x00' := fun he => ha (by simp [eq_of_tolower_eq rfl he])
    have hne : tolower c ≠ tolower '\x00' := hc
    simp [strcasecmp, Legacy.strcasecmp, hne]
  | c :: a, d :: b, ha, hb, r, t => by
    have hc : c ≠ '\x00' := fun he => ha (by simp [he])
    have ih := strcasecmp_append (fun h => ha (List.mem_cons_of_mem c h))
      (fun h => hb (List.mem_cons_of_mem d h)) r t
    simp only [List.cons_append, strcasecmp, if_neg hc, ih]
    by_cases hcd : tolower c = tolower d
    · rw [if_neg (by simpa using hcd)]
      simp [Legacy.strcasecmp, hcd]
    · rw [if_pos hcd]
      simp [Legacy.strcasecmp, hcd]

/-! ### The tables -/

def SectionCell.Reads (buf : List Char) (pos : ℕ) (cell : SectionCell) (row : SectionRow) : Prop :=
  IniMemory.Reads buf pos cell.psname row.psname ∧ cell.ppairs = row.ppairs ∧
    cell.npairs = row.npairs

def KeyCell.Reads (buf : List Char) (pos : ℕ) (cell : KeyCell) (row : KeyRow) : Prop :=
  IniMemory.Reads buf pos cell.pkname row.pkname ∧ IniMemory.Reads buf pos cell.pkvalue row.pkvalue ∧
    cell.psect = row.psect

/-- The rows of the memory stand for the rows of the texts; their strings end
before `pos`. -/
structure Tables (m : IniMemory) (pos : ℕ) (db : IniDb) : Prop where
  sections : List.Forall₂ (SectionCell.Reads m.pbuf pos) m.psections db.psections
  keys : List.Forall₂ (KeyCell.Reads m.pbuf pos) m.pkeys db.pkeys
  current : m.pcursect = if db.psections = [] then none else some db.pcursect
  current_lt : db.psections ≠ [] → db.pcursect < db.psections.length

/-- The rows are within the sizes of the tables. -/
def Fits (m : IniMemory) (db : IniDb) : Prop :=
  db.psections.length ≤ m.nsects ∧ db.pkeys.length ≤ m.npairs

variable {db : IniDb}

theorem Tables.mono (h : Tables m pos db) {pos' : ℕ} (hle : pos ≤ pos') : Tables m pos' db where
  sections := h.sections.imp fun _ _ hs => ⟨hs.1.mono hle, hs.2⟩
  keys := h.keys.imp fun _ _ hk => ⟨hk.1.mono hle, hk.2.1.mono hle, hk.2.2⟩
  current := h.current
  current_lt := h.current_lt

theorem Tables.set (h : Tables m pos db) (hle : pos ≤ w) (c : Char) :
    Tables { m with pbuf := m.pbuf.set w c } pos db where
  sections := h.sections.imp fun _ _ hs => ⟨hs.1.set hle c, hs.2⟩
  keys := h.keys.imp fun _ _ hk => ⟨hk.1.set hle c, hk.2.1.set hle c, hk.2.2⟩
  current := h.current
  current_lt := h.current_lt

theorem Tables.psections_eq_nil (h : Tables m pos db) : m.psections = [] ↔ db.psections = [] := by
  rw [← List.length_eq_zero_iff, ← List.length_eq_zero_iff, h.sections.length_eq]

theorem Tables.foundSection (h : Tables m pos db) {q : ℕ}
    (hname : Reads m.pbuf pos (.buffer q) name) :
    m.foundSection q = some (db.psections.head?.any fun s => Legacy.strcasecmp s.psname name) := by
  have hsections := h.sections
  unfold IniMemory.foundSection
  generalize m.psections = cells at hsections ⊢
  generalize db.psections = rows at hsections ⊢
  cases hsections with
  | nil => rfl
  | @cons cell row _ _ hrow _ =>
    obtain ⟨hmem, rest, hrest⟩ := hrow.1.stringAt
    obtain ⟨hmem', rest', hrest'⟩ := hname.stringAt
    simp only [List.head?_cons, Option.any_some, hrest, hrest']
    exact strcasecmp_append hmem hmem' rest rest'

theorem Tables.enterSection (h : Tables m pos db) (hfits : Fits m db) {q : ℕ}
    (hname : Reads m.pbuf pos (.buffer q) name) :
    Takes (m.enterSection q) (Fits m (db.enterSection name))
      fun m' => m'.pbuf = m.pbuf ∧ Tables m' pos (db.enterSection name) := by
  have hlen : m.psections.length = db.psections.length := h.sections.length_eq
  unfold IniMemory.enterSection IniDb.enterSection
  rw [h.foundSection hname]
  simp only [Option.bind_eq_bind, Option.pure_def, Option.bind_some]
  by_cases hsame : (db.psections.head?.any fun s => Legacy.strcasecmp s.psname name) = true
  · simp only [if_pos hsame]
    have hne : db.psections ≠ [] := fun hnil => by simp [hnil] at hsame
    refine takes_some ⟨rfl, ⟨h.sections, h.keys, ?_, fun _ => ?_⟩⟩ hfits
    · rw [if_neg hne]
    · exact List.length_pos_iff.mpr hne
  · simp only [if_neg hsame]
    by_cases hroom : m.psections.length < m.nsects
    · rw [if_pos hroom]
      refine takes_some ⟨rfl, ⟨?_, h.keys, ?_, fun _ => ?_⟩⟩ ⟨?_, hfits.2⟩
      · exact List.rel_append h.sections (.cons ⟨hname, rfl, rfl⟩ .nil)
      · simp [hlen]
      · simp
      · simp only [List.length_append, List.length_singleton]
        omega
    · rw [if_neg hroom]
      refine takes_none fun hfits' => hroom ?_
      have hle := hfits'.1
      simp only [List.length_append, List.length_singleton] at hle
      omega

/-- The rows before a key is added: without any section, the default one. -/
def withDefault (db : IniDb) : IniDb :=
  if db.psections = [] then
    { db with psections := [{ psname := "Default".toList }], pcursect := 0 }
  else db

theorem Tables.applyDefaultSection (h : Tables m pos db) :
    Takes m.applyDefaultSection (db.psections = [] → 0 < m.nsects) fun m' =>
      m'.pbuf = m.pbuf ∧ Tables m' pos (withDefault db) := by
  unfold IniMemory.applyDefaultSection withDefault
  by_cases hnil : db.psections = []
  · rw [if_pos (h.psections_eq_nil.mpr hnil), if_pos hnil]
    by_cases hroom : 0 < m.nsects
    · rw [if_pos hroom]
      have hrow : SectionCell.Reads m.pbuf pos { psname := .constant "Default".toList }
          { psname := "Default".toList } := ⟨⟨rfl, by decide⟩, rfl, rfl⟩
      exact takes_some ⟨rfl, ⟨.cons hrow .nil, h.keys, rfl, fun _ => Nat.one_pos⟩⟩ fun _ => hroom
    · rw [if_neg hroom]
      exact takes_none fun hok => hroom (hok hnil)
  · rw [if_neg (mt h.psections_eq_nil.mp hnil), if_neg hnil]
    exact takes_some ⟨rfl, h⟩ fun hn => absurd hn hnil

theorem forall₂_modify {α β : Type} {R : α → β → Prop} {f : α → α} {g : β → β}
    (hR : ∀ a b, R a b → R (f a) (g b)) {l : List α} {l' : List β} (h : List.Forall₂ R l l') :
    ∀ i, List.Forall₂ R (l.modify i f) (l'.modify i g) := by
  induction h with
  | nil => exact fun i => by simp
  | @cons a b l l' hab hll ih =>
    intro i
    cases i with
    | zero => exact .cons (hR a b hab) hll
    | succ i => exact .cons hab (ih i)

theorem withDefault_ne (db : IniDb) : (withDefault db).psections ≠ [] := by
  unfold withDefault
  split_ifs with hnil
  · exact List.cons_ne_nil _ _
  · exact hnil

theorem addKey_eq (db : IniDb) (name value : Str) : db.addKey name value =
    { withDefault db with
      pkeys := (withDefault db).pkeys ++ [⟨name, value, (withDefault db).pcursect⟩]
      psections := (withDefault db).psections.modify (withDefault db).pcursect fun s =>
        { s with ppairs := some (s.ppairs.getD (withDefault db).pkeys.length)
                 npairs := s.npairs + 1 } } := rfl

theorem withDefault_pkeys (db : IniDb) : (withDefault db).pkeys = db.pkeys := by
  unfold withDefault
  split_ifs <;> rfl

theorem Tables.addKey (h : Tables m pos db) (hfits : Fits m db) {pname : ℕ} {pval : StrPtr}
    {value : Str} (hname : Reads m.pbuf pos (.buffer pname) name) (hvalue : Reads m.pbuf pos pval value) :
    Takes (m.addKey pname pval) (Fits m (db.addKey name value))
      fun m' => m'.pbuf = m.pbuf ∧ Tables m' pos (db.addKey name value) := by
  have hsects : (db.addKey name value).psections.length = (withDefault db).psections.length := by
    simp [addKey_eq]
  have hkeys : (db.addKey name value).pkeys.length = db.pkeys.length + 1 := by
    simp [addKey_eq, withDefault_pkeys]
  have hok : Fits m (db.addKey name value) ↔
      (db.psections = [] → 0 < m.nsects) ∧ db.pkeys.length < m.npairs := by
    rw [Fits, hsects, hkeys, withDefault, Nat.add_one_le_iff]
    by_cases hnil : db.psections = []
    · simp [hnil, Nat.succ_le_iff]
    · simp [hnil, hfits.1]
  rw [hok]
  refine h.applyDefaultSection.bind fun m' _ hm' => ?_
  obtain ⟨hbuf, htab⟩ := hm'
  have hcur : m'.pcursect = some (withDefault db).pcursect := by
    rw [htab.current, if_neg (withDefault_ne db)]
  have hlt : (withDefault db).pcursect < m'.psections.length := by
    rw [htab.sections.length_eq]
    exact htab.current_lt (withDefault_ne db)
  have hlen : m'.pkeys.length = db.pkeys.length := by
    rw [htab.keys.length_eq, withDefault_pkeys]
  have hnpairs : m'.npairs = m.npairs := by rw [npairs, npairs, bufsize, bufsize, hbuf]
  simp only [hcur, Option.bind_eq_bind, Option.bind_some, Option.pure_def, hlen, hnpairs]
  by_cases hroom : db.pkeys.length < m.npairs
  · rw [if_pos ⟨hroom, hlt⟩]
    refine takes_some ⟨hbuf, ?_⟩ hroom
    rw [addKey_eq, ← withDefault_pkeys db]
    refine ⟨forall₂_modify (fun cell row hrow => ?_) htab.sections _, ?_, ?_, ?_⟩
    · exact ⟨hrow.1, by simp [hrow.2.1], by simp [hrow.2.2]⟩
    · refine List.rel_append htab.keys (.cons ⟨?_, ?_, rfl⟩ .nil)
      · simpa [hbuf] using hname
      · simpa [hbuf] using hvalue
    · simp [withDefault_ne db]
    · simpa [List.length_modify] using htab.current_lt
  · rw [if_neg fun hand => hroom hand.1]
    exact takes_none hroom

/-! ### A round -/

/-- The memory stands for the texts: the pointer is at the rest of the text. -/
structure Holds (m : IniMemory) (p : ℕ) (db : IniDb) (s : Str) : Prop where
  text : At m p s
  tables : Tables m p db
  fits : Fits m db

/-- What a step from `m` leaves: a memory of the same size that stands for `r`. -/
def Leaves (m : IniMemory) (r : IniDb × Str) (r' : IniMemory × ℕ) : Prop :=
  r'.1.pbuf.length = m.pbuf.length ∧ Holds r'.1 r'.2 r.1 r.2

theorem fits_congr {m' : IniMemory} (h : m'.pbuf.length = m.pbuf.length) : Fits m' db ↔ Fits m db := by
  rw [Fits, Fits, nsects, nsects, npairs, npairs, bufsize, bufsize, h]

theorem Holds.parseSection (h : Holds m p db s) :
    Takes (m.parseSection p) (Fits m (Legacy.parseSection db s).1)
      (Leaves m (Legacy.parseSection db s)) := by
  unfold IniMemory.parseSection Legacy.parseSection
  simp only [h.text.parseSectionName, Option.bind_eq_bind, Option.bind_some, Option.pure_def]
  by_cases hlen : Legacy.parseSectionName s > 0
  · rw [if_pos hlen, if_pos hlen]
    obtain ⟨hlt, hmem⟩ := parseSectionName_le hlen
    generalize (Legacy.parseSectionName s).toNat = k at hlt hmem ⊢
    rw [h.text.store hlt.le, Option.bind_some]
    have htext := (h.text.drop hlt).set (w := p + k) (by omega) '\x00'
    have htab := (h.tables.set (Nat.le_add_right p k) '\x00').mono
      (show p ≤ p + (k + 1) from Nat.le_add_right p (k + 1))
    have hsize : ({ m with pbuf := m.pbuf.set (p + k) '\x00' } : IniMemory).pbuf.length =
        m.pbuf.length := List.length_set
    have henter := htab.enterSection ((fits_congr hsize).mpr h.fits) (h.text.reads hlt.le hmem)
    rw [fits_congr hsize] at henter
    refine henter.bind_some fun m' hok hm' => ?_
    obtain ⟨hbuf, htab'⟩ := hm'
    have hsize' : m'.pbuf.length = m.pbuf.length := by rw [hbuf, hsize]
    obtain ⟨j, hj, hline⟩ := (htext.of_pbuf hbuf).skipline
    rw [hj]
    refine ⟨_, rfl, hsize', hline, htab'.mono (Nat.le_add_right _ j), (fits_congr hsize').mpr hok⟩
  · rw [if_neg hlen, if_neg hlen]
    obtain ⟨k, hk, htext⟩ := h.text.skipline
    rw [hk]
    exact takes_some ⟨rfl, htext, h.tables.mono (Nat.le_add_right p k), h.fits⟩ h.fits

/-- The value at a pointer goes on to the last character of the file. -/
def RunsOut (v : Str) : Prop := 0 < Legacy.parseKeyValue v ∧ Legacy.parseKeyValue v = v.length

/-- The line feed after a value. -/
theorem Holds.afterValue (h : Holds m p db s) :
    ∃ r, (do
        let c ← m.pbuf[p]?
        let p ← if c = '\n' then m.skipline p else some p
        return (m, p)) = some r ∧
      Leaves m (db, if peek s = '\n' then Legacy.skipline s else s) r := by
  simp only [h.text.getElem?, Option.bind_eq_bind, Option.bind_some, Option.pure_def]
  by_cases hline : peek s = '\n'
  · obtain ⟨k, hk, htext⟩ := h.text.skipline
    rw [if_pos hline, if_pos hline, hk]
    exact ⟨_, rfl, rfl, htext, h.tables.mono (Nat.le_add_right p k), h.fits⟩
  · rw [if_neg hline, if_neg hline]
    exact ⟨_, rfl, rfl, h⟩

theorem Holds.parseValue (h : Holds m p db s) {pname : ℕ}
    (hname : Reads m.pbuf p (.buffer pname) name) :
    Takes (m.parseValue pname p) (Fits m (Legacy.parseValue db name s).1 ∧ ¬ RunsOut s)
      (Leaves m (Legacy.parseValue db name s)) := by
  unfold IniMemory.parseValue Legacy.parseValue RunsOut
  have hle : Legacy.parseKeyValue s ≤ s.length :=
    (parseKeyValue_le s).trans (List.takeWhile_prefix _).length_le
  have hmem : '\x00' ∉ s.take (Legacy.parseKeyValue s) :=
    notMem_take_of_le (by decide) (parseKeyValue_le s)
  simp only [h.text.parseKeyValue, Option.bind_eq_bind, Option.bind_some]
  generalize Legacy.parseKeyValue s = k at hle hmem ⊢
  by_cases hlen : k > 0
  · simp only [if_pos hlen, h.text.store hle, Option.bind_some]
    have hsize : ({ m with pbuf := m.pbuf.set (p + k) '\x00' } : IniMemory).pbuf.length =
        m.pbuf.length := List.length_set
    have hstep : p ≤ p + (k + 1) := Nat.le_add_right p (k + 1)
    have htab := (h.tables.set (Nat.le_add_right p k) '\x00').mono hstep
    have hkey := htab.addKey ((fits_congr hsize).mpr h.fits)
      ((hname.set (Nat.le_add_right p k) '\x00').mono hstep) (h.text.reads hle hmem)
    rw [fits_congr hsize] at hkey
    refine hkey.bind fun m' hok hm' => ?_
    obtain ⟨hbuf, htab'⟩ := hm'
    have hsize' : m'.pbuf.length = m.pbuf.length := by rw [hbuf, hsize]
    rcases hle.lt_or_eq with hlt | heq
    · have htext := (h.text.drop hlt).set (w := p + k) (by omega) '\x00'
      have hafter : Holds m' (p + (k + 1)) (db.addKey name (s.take k)) (s.drop (k + 1)) :=
        ⟨htext.of_pbuf hbuf, htab', (fits_congr hsize').mpr hok⟩
      obtain ⟨r, hr, hleaves⟩ := hafter.afterValue
      simp only [Option.bind_eq_bind, Option.bind_some] at hr
      rw [hr]
      exact takes_some ⟨hleaves.1.trans hsize', hleaves.2⟩ fun hout => absurd hout.2 hlt.ne
    · have hend : m'.pbuf[p + (k + 1)]? = none := by
        have hlength := h.text.length
        exact List.getElem?_eq_none (by omega)
      rw [hend]
      exact takes_none fun hout => hout ⟨hlen, heq⟩
  · simp only [if_neg hlen]
    have hkey := h.tables.addKey h.fits hname (show Reads m.pbuf p (.constant "<empty>".toList) _ from
      ⟨rfl, by decide⟩)
    have hok : ¬ (k > 0 ∧ k = s.length) := fun hout => hlen hout.1
    rw [and_iff_left hok]
    refine hkey.bind_some fun m' hok hm' => ?_
    obtain ⟨hbuf, htab'⟩ := hm'
    have hsize : m'.pbuf.length = m.pbuf.length := by rw [hbuf]
    have hafter : Holds m' p (db.addKey name "<empty>".toList) s :=
      ⟨h.text.of_pbuf hbuf, htab', (fits_congr hsize).mpr hok⟩
    obtain ⟨r, hr, hleaves⟩ := hafter.afterValue
    simp only [Option.bind_eq_bind, Option.bind_some] at hr
    exact ⟨r, hr, hleaves.1.trans hsize, hleaves.2⟩

/-- The text from the value of the key at `p` on. -/
def valueText (p : Str) : Str :=
  let q := p.drop (Legacy.parseKeyName p)
  Legacy.skipws ((if peek q ≠ '=' then Legacy.skipws q else q).drop 1)

theorem equals_mem_skipws {t : Str} (h : '=' ∈ t) : '=' ∈ Legacy.skipws t := by
  rw [← List.takeWhile_append_dropWhile (p := fun c => c = ' ' ∨ c = '\t' ∨ c = '\r') (l := t)] at h
  rcases List.mem_append.mp h with hblank | hrest
  · exact absurd (List.mem_takeWhile_imp hblank) (by decide)
  · exact hrest

/-- The equality sign of a key is not before the end of its name. -/
theorem equals_mem_drop (h : 0 < Legacy.parseKeyName s) :
    '=' ∈ s.drop (Legacy.parseKeyName s) := by
  obtain ⟨hle, heq⟩ := parseKeyName_le h
  rw [← drop_length_takeWhile] at heq
  generalize (s.takeWhile fun c => c ≠ '=' ∧ c ≠ '\n' ∧ c ≠ '\r' ∧ c ≠ '\x00').length = n at hle heq
  have hmem : '=' ∈ s.drop n := by
    cases hn : s.drop n with
    | nil =>
      rw [hn] at heq
      exact absurd heq (by decide)
    | cons c rest =>
      rw [hn] at heq
      exact List.mem_cons.mpr (.inl heq.symm)
  exact (List.drop_suffix_drop_left s hle).subset hmem

theorem At.pastEquals (h : At m p s) (hlen : 0 < Legacy.parseKeyName s) :
    ∃ q, m.pastEquals (p + Legacy.parseKeyName s) = some q ∧ p + Legacy.parseKeyName s < q ∧
      At m q (valueText s) := by
  have hlt : Legacy.parseKeyName s ≤ s.length :=
    (parseKeyName_le hlen).1.trans (List.takeWhile_prefix _).length_le
  have hmem : '=' ∈ s.drop (Legacy.parseKeyName s) := equals_mem_drop hlen
  have htext : At m (p + Legacy.parseKeyName s) (s.drop (Legacy.parseKeyName s)) := h.drop hlt
  unfold IniMemory.pastEquals valueText
  generalize s.drop (Legacy.parseKeyName s) = t at hmem htext ⊢
  generalize p + Legacy.parseKeyName s = w at htext ⊢
  simp only [htext.getElem?, Option.bind_eq_bind, Option.bind_some]
  have hnext : ∀ {u v}, At m u v → '=' ∈ v → w ≤ u →
      ∃ q, m.skipws (u + 1) = some q ∧ w < q ∧ At m q (Legacy.skipws (v.drop 1)) := by
    intro u v huv hv hwu
    obtain ⟨k, hk, hskip⟩ := (huv.drop (List.length_pos_of_mem hv)).skipws
    exact ⟨_, hk, by omega, hskip⟩
  by_cases hsign : peek t ≠ '='
  · obtain ⟨k, hk, hblank⟩ := htext.skipws
    rw [if_pos hsign, if_pos hsign, hk]
    exact hnext hblank (equals_mem_skipws hmem) (Nat.le_add_right w k)
  · rw [if_neg hsign, if_neg hsign]
    exact hnext htext hmem le_rfl

theorem Holds.parseKey (h : Holds m p db s) :
    Takes (m.parseKey p)
      (Fits m (Legacy.parseKey db s).1 ∧ (0 < Legacy.parseKeyName s → ¬ RunsOut (valueText s)))
      (Leaves m (Legacy.parseKey db s)) := by
  unfold IniMemory.parseKey Legacy.parseKey
  simp only [h.text.parseKeyName, Option.bind_eq_bind, Option.bind_some, Option.pure_def]
  by_cases hlen : Legacy.parseKeyName s > 0
  · rw [if_pos hlen, if_pos hlen, forall_prop_of_true hlen]
    obtain ⟨hle, heq⟩ := parseKeyName_le hlen
    have hmem : '\x00' ∉ s.take (Legacy.parseKeyName s) := notMem_take_of_le (by decide) hle
    have hlt : Legacy.parseKeyName s ≤ s.length := hle.trans (List.takeWhile_prefix _).length_le
    obtain ⟨q, hq, hpq, htext⟩ := h.text.pastEquals hlen
    rw [hq]
    simp only [Option.bind_some]
    rw [h.text.store hlt, Option.bind_some]
    have hsize : ({ m with pbuf := m.pbuf.set (p + Legacy.parseKeyName s) '\x00' } :
        IniMemory).pbuf.length = m.pbuf.length := List.length_set
    have hstep : p ≤ q := by omega
    have htab := (h.tables.set (Nat.le_add_right p (Legacy.parseKeyName s)) '\x00').mono hstep
    have hname := (h.text.reads hlt hmem).mono hpq
    have hholds : Holds { m with pbuf := m.pbuf.set (p + Legacy.parseKeyName s) '\x00' } q db
        (valueText s) := ⟨htext.set hpq '\x00', htab, (fits_congr hsize).mpr h.fits⟩
    have hvalue := hholds.parseValue hname
    rw [fits_congr hsize] at hvalue
    exact hvalue.imp fun r hr => ⟨hr.1.trans hsize, hr.2⟩
  · rw [if_neg hlen, if_neg hlen]
    obtain ⟨k, hk, htext⟩ := h.text.skipline
    rw [hk]
    exact takes_some ⟨rfl, htext, h.tables.mono (Nat.le_add_right p k), h.fits⟩
      ⟨h.fits, fun hpos => absurd hpos hlen⟩

/-- What a round finds at a pointer: a header with its name, or a key with its
name and the text from its value on. -/
inductive Item
  | header (name : Str)
  | key (name value : Str)

def itemAt (p : Str) : Option Item :=
  let p := Legacy.skipws p
  if peek p = '\n' ∨ peek p = '\r' then none
  else if peek p = '[' then
    let len := Legacy.parseSectionName (p.drop 1)
    if len > 0 then some (.header ((p.drop 1).take len.toNat)) else none
  else if peek p = ';' ∨ peek p = '#' then none
  else if 0 < Legacy.parseKeyName p then
    some (.key (p.take (Legacy.parseKeyName p)) (valueText p))
  else none

/-- A key whose value goes on to the last character of the file. -/
def Item.RunsOut : Item → Prop
  | .header _ => False
  | .key _ value => IniMemory.RunsOut value

theorem Holds.step (h : Holds m p db s) {k : ℕ} (htext : At m (p + k) t) : Holds m (p + k) db t :=
  ⟨htext, h.tables.mono (Nat.le_add_right p k), h.fits⟩

theorem Holds.parseRound (h : Holds m p db s) :
    Takes (m.parseRound p)
      (Fits m (Legacy.parseRound db s).1 ∧ ∀ item, itemAt s = some item → ¬ item.RunsOut)
      (Leaves m (Legacy.parseRound db s)) := by
  obtain ⟨k, hk, hskip⟩ := h.text.skipws
  unfold IniMemory.parseRound Legacy.parseRound itemAt
  rw [hk]
  have hstart : Holds m (p + k) db (Legacy.skipws s) := h.step hskip
  generalize Legacy.skipws s = t at hskip hstart ⊢
  generalize p + k = q at hskip hstart ⊢
  have hpos : peek t ≠ '\x00' → 1 ≤ t.length := by
    intro hne
    apply List.length_pos_iff.mpr
    intro hnil
    exact hne (by rw [hnil]; rfl)
  simp only [Option.bind_eq_bind, Option.bind_some, Option.pure_def, hskip.getElem?]
  by_cases hend : peek t = '\n' ∨ peek t = '\r'
  · have hne : peek t ≠ '\x00' := by rcases hend with he | he <;> rw [he] <;> decide
    simp only [if_pos hend]
    exact takes_some ⟨rfl, hstart.step (hskip.drop (hpos hne))⟩ ⟨h.fits, nofun⟩
  · simp only [if_neg hend]
    by_cases hsection : peek t = '['
    · have hne : peek t ≠ '\x00' := by rw [hsection]; decide
      simp only [if_pos hsection]
      have hnot : ∀ item, (if Legacy.parseSectionName (t.drop 1) > 0 then
          some (Item.header ((t.drop 1).take (Legacy.parseSectionName (t.drop 1)).toNat))
          else none) = some item → ¬ item.RunsOut := by
        intro item hitem
        split_ifs at hitem
        cases hitem
        exact not_false
      rw [and_iff_left hnot]
      exact (hstart.step (hskip.drop (hpos hne))).parseSection
    · simp only [if_neg hsection]
      by_cases hcomment : peek t = ';' ∨ peek t = '#'
      · simp only [if_pos hcomment]
        obtain ⟨j, hj, hline⟩ := hskip.skipline
        rw [hj]
        exact takes_some ⟨rfl, hstart.step hline⟩ ⟨h.fits, nofun⟩
      · simp only [if_neg hcomment]
        have hitem : (∀ item, (if 0 < Legacy.parseKeyName t then
            some (Item.key (t.take (Legacy.parseKeyName t)) (valueText t))
            else none) = some item → ¬ item.RunsOut) ↔
            (0 < Legacy.parseKeyName t → ¬ RunsOut (valueText t)) := by
          split_ifs with hname
          · simp [hname, Item.RunsOut]
          · simp [hname]
        rw [hitem]
        exact hstart.parseKey

end IniMemory
end Legacy
end Launchpad
