/-
# The room a legacy INI file needs

`create_db_structure` takes a row for every four bytes of the file, the length
of `"[x]\n"` and of `"a=b\n"`. The scanner accepts shorter entries: `"a=\n"`, a
last line without its line feed, a default section without a header. What a text
needs is counted over its headers and keys (`Roomy`), and `parse_ini_file` stays
inside the tables and the buffer exactly on the texts with that room
(`parseIniFile_isSome_iff`); there it fills the tables of the scanner on texts
(`parseIniFile_takes`).
-/
import Launchpad.Legacy.IniBounds

namespace Launchpad
namespace Legacy
namespace IniMemory

open Runs (Takes)

variable {m : IniMemory} {p : ℕ} {s : Str} {db : IniDb}

/-! ### The whole file -/

/-- The texts the rounds of the loop start at. -/
def roundsFrom : ℕ → Str → List Str
  | 0, _ => []
  | fuel + 1, p =>
    p :: if peek (Legacy.parseRound {} p).2 = '\x00' then [] else
      roundsFrom fuel (Legacy.parseRound {} p).2

/-- The headers and keys of a text. -/
def itemsFrom (fuel : ℕ) (p : Str) : List Item := (roundsFrom fuel p).filterMap itemAt

/-- The tables with the row of an item. -/
def enterItem (db : IniDb) : Item → IniDb
  | .header name => db.enterSection name
  | .key name value => db.addKey name
      (if Legacy.parseKeyValue value > 0 then value.take (Legacy.parseKeyValue value)
        else "<empty>".toList)

theorem parseValue_fst (db : IniDb) (name p : Str) : (Legacy.parseValue db name p).1 = db.addKey name
    (if Legacy.parseKeyValue p > 0 then p.take (Legacy.parseKeyValue p) else "<empty>".toList) := by
  unfold Legacy.parseValue
  simp only
  split_ifs <;> rfl

theorem parseKey_of_pos (db : IniDb) {p : Str} (h : 0 < Legacy.parseKeyName p) :
    Legacy.parseKey db p = Legacy.parseValue db (p.take (Legacy.parseKeyName p)) (valueText p) := by
  unfold Legacy.parseKey
  rw [if_pos h]
  rfl

/-- A round enters the item at its start. -/
theorem parseRound_fst (db : IniDb) (p : Str) :
    (Legacy.parseRound db p).1 = (itemAt p).elim db (enterItem db) := by
  unfold Legacy.parseRound itemAt
  generalize Legacy.skipws p = t
  by_cases hend : peek t = '\n' ∨ peek t = '\r'
  · simp only [if_pos hend, Option.elim_none]
  · by_cases hsection : peek t = '['
    · simp only [if_neg hend, if_pos hsection, Legacy.parseSection]
      split_ifs <;> rfl
    · by_cases hcomment : peek t = ';' ∨ peek t = '#'
      · simp only [if_neg hend, if_neg hsection, if_pos hcomment, Option.elim_none]
      · simp only [if_neg hend, if_neg hsection, if_neg hcomment]
        by_cases hkey : 0 < Legacy.parseKeyName t
        · rw [if_pos hkey, parseKey_of_pos db hkey, parseValue_fst]
          rfl
        · rw [if_neg hkey, Legacy.parseKey, if_neg hkey]
          rfl

theorem parseSection_snd (db db' : IniDb) (p : Str) :
    (Legacy.parseSection db p).2 = (Legacy.parseSection db' p).2 := by
  unfold Legacy.parseSection
  simp only
  split_ifs <;> rfl

theorem parseValue_snd (db db' : IniDb) (name p : Str) :
    (Legacy.parseValue db name p).2 = (Legacy.parseValue db' name p).2 := by
  unfold Legacy.parseValue
  rfl

theorem parseKey_snd (db db' : IniDb) (p : Str) :
    (Legacy.parseKey db p).2 = (Legacy.parseKey db' p).2 := by
  by_cases hkey : 0 < Legacy.parseKeyName p
  · rw [parseKey_of_pos db hkey, parseKey_of_pos db' hkey]
    exact parseValue_snd db db' _ _
  · rw [Legacy.parseKey, Legacy.parseKey, if_neg hkey, if_neg hkey]

/-- Where the pointer goes does not depend on the tables. -/
theorem parseRound_snd (db db' : IniDb) (p : Str) :
    (Legacy.parseRound db p).2 = (Legacy.parseRound db' p).2 := by
  unfold Legacy.parseRound
  simp only
  split_ifs
  · rfl
  · exact parseSection_snd db db' _
  · rfl
  · exact parseKey_snd db db' _

theorem itemsFrom_succ (fuel : ℕ) (p : Str) : itemsFrom (fuel + 1) p = (itemAt p).toList ++
    if peek (Legacy.parseRound {} p).2 = '\x00' then []
    else itemsFrom fuel (Legacy.parseRound {} p).2 := by
  simp only [itemsFrom, roundsFrom]
  cases hitem : itemAt p with
  | none =>
    rw [List.filterMap_cons_none hitem]
    split_ifs <;> rfl
  | some item =>
    rw [List.filterMap_cons_some hitem]
    split_ifs <;> rfl

theorem foldl_itemAt (db : IniDb) (p : Str) :
    (itemAt p).toList.foldl enterItem db = (Legacy.parseRound db p).1 := by
  rw [parseRound_fst]
  cases itemAt p <;> rfl

/-- The scanner on texts fills the tables with the rows of the items. -/
theorem parseLoop_eq (fuel : ℕ) : ∀ (db : IniDb) (p : Str),
    Legacy.parseLoop fuel db p = (itemsFrom fuel p).foldl enterItem db := by
  induction fuel with
  | zero => exact fun db p => rfl
  | succ fuel ih =>
    intro db p
    rw [itemsFrom_succ, List.foldl_append, foldl_itemAt, Legacy.parseLoop]
    simp only [← parseRound_snd db {} p]
    split_ifs
    · rfl
    · exact ih _ _

theorem fits_of_enterItem {item : Item} (h : Fits m (enterItem db item)) : Fits m db := by
  obtain ⟨hsections, hkeys⟩ := h
  cases item with
  | header name =>
    have hlen : db.psections.length ≤ (db.enterSection name).psections.length := by
      unfold IniDb.enterSection
      split_ifs
      · exact le_rfl
      · simp
    exact ⟨hlen.trans hsections, (length_enterSection db name).1 ▸ hkeys⟩
  | key name value =>
    rw [enterItem, addKey_eq, List.length_modify] at hsections
    rw [enterItem, (length_addKey _ _ _).1] at hkeys
    refine ⟨?_, by omega⟩
    unfold withDefault at hsections
    split_ifs at hsections with hnil
    · rw [hnil]
      exact Nat.zero_le _
    · exact hsections

theorem fits_of_foldl (items : List Item) : ∀ db : IniDb,
    Fits m (items.foldl enterItem db) → Fits m db := by
  induction items with
  | nil => exact fun _ h => h
  | cons item items ih => exact fun _ h => fits_of_enterItem (ih _ h)

/-- The loop is defined when the rows of all items fit and no value runs out; the
tables then stand for the tables of the texts. -/
theorem Holds.parseLoop (fuel : ℕ) : ∀ {m : IniMemory} {p : ℕ} {db : IniDb} {s : Str},
    Holds m p db s → s.length < fuel →
    Takes (IniMemory.parseLoop fuel m p)
      (Fits m ((itemsFrom fuel s).foldl enterItem db) ∧
        ∀ item ∈ itemsFrom fuel s, ¬ item.RunsOut)
      fun m' => ∃ pos, Tables m' pos ((itemsFrom fuel s).foldl enterItem db) := by
  induction fuel with
  | zero => exact fun _ hfuel => absurd hfuel (Nat.not_lt_zero _)
  | succ fuel ih =>
    intro m p db s h hfuel
    have hround := h.parseRound
    rw [itemsFrom_succ, List.foldl_append, foldl_itemAt, IniMemory.parseLoop,
      ← parseRound_snd db {} s]
    have hmoves : peek (Legacy.parseRound db s).2 ≠ '\x00' →
        (Legacy.parseRound db s).2.length < s.length := parseRound_moves
    generalize Legacy.parseRound db s = r at hround hmoves ⊢
    by_cases hend : peek r.2 = '\x00'
    · rw [if_pos hend, List.append_nil, List.foldl_nil]
      simp only [Option.mem_toList]
      refine hround.bind_some fun a _ ha => ?_
      obtain ⟨-, hholds⟩ := ha
      simp only [hholds.text.getElem?, hend, Option.bind_eq_bind, Option.bind_some]
      exact ⟨_, rfl, _, hholds.tables⟩
    · rw [if_neg hend]
      have hok : (Fits m ((itemsFrom fuel r.2).foldl enterItem r.1) ∧
          ∀ item ∈ (itemAt s).toList ++ itemsFrom fuel r.2, ¬ item.RunsOut) ↔
          (Fits m r.1 ∧ ∀ item, itemAt s = some item → ¬ item.RunsOut) ∧
            Fits m ((itemsFrom fuel r.2).foldl enterItem r.1) ∧
              ∀ item ∈ itemsFrom fuel r.2, ¬ item.RunsOut := by
        simp only [List.mem_append, Option.mem_toList, or_imp, forall_and]
        constructor
        · exact fun ⟨hfits, hat, hfrom⟩ => ⟨⟨fits_of_foldl _ _ hfits, hat⟩, hfits, hfrom⟩
        · exact fun ⟨⟨_, hat⟩, hfits, hfrom⟩ => ⟨hfits, hat, hfrom⟩
      rw [hok]
      refine hround.bind fun a _ ha => ?_
      obtain ⟨hsize, hholds⟩ := ha
      have hlt : a.2 < a.1.bufsize := by
        have hlen := hholds.text.length
        have hpos : 0 < r.2.length := by
          apply List.length_pos_iff.mpr
          intro hnil
          exact hend (by rw [hnil]; rfl)
        rw [bufsize]
        omega
      have hnext := ih hholds (by have := hmoves hend; omega)
      rw [fits_congr hsize] at hnext
      simp only [hholds.text.getElem?, Option.bind_eq_bind, Option.bind_some]
      rw [if_pos ⟨hend, hlt⟩]
      exact hnext

/-! ### The room a text needs -/

/-- The headers and keys of a file with that text. -/
def itemsOf (text : Str) : List Item := itemsFrom (text.length + 1) text

def Item.isKey : Item → Bool
  | .header _ => false
  | .key _ _ => true

/-- A header adds a section unless it has the name of the first one. -/
def Item.opens (first : Str) : Item → Bool
  | .header name => !Legacy.strcasecmp first name
  | .key _ _ => false

/-- The sections of a text: the first one, which is the default one when a key
comes first, and one for every header with another name. -/
def sectionRows : List Item → ℕ
  | [] => 0
  | .header name :: items => 1 + items.countP (Item.opens name)
  | .key _ _ :: items => 1 + items.countP (Item.opens "Default".toList)

/-- A text has four bytes for every section and four for every key, and its last
value is ended. -/
structure Roomy (text : Str) : Prop where
  sections : sectionRows (itemsOf text) ≤ text.length / 4
  keys : (itemsOf text).countP Item.isKey ≤ text.length / 4
  ended : ∀ item ∈ itemsOf text, ¬ item.RunsOut

theorem length_pkeys_foldl (items : List Item) : ∀ db : IniDb,
    (items.foldl enterItem db).pkeys.length = db.pkeys.length + items.countP Item.isKey := by
  induction items with
  | nil => exact fun _ => rfl
  | cons item items ih =>
    intro db
    rw [List.foldl_cons, ih]
    cases item with
    | header name =>
      rw [List.countP_cons_of_neg (by simp [Item.isKey]), enterItem, (length_enterSection db name).1]
    | key name value =>
      rw [List.countP_cons_of_pos rfl, enterItem, (length_addKey _ _ _).1]
      omega

/-- The first section stays the first, and every other name adds one. -/
theorem length_psections_foldl {first : Str} (items : List Item) : ∀ db : IniDb,
    db.psections.head?.map SectionRow.psname = some first →
    (items.foldl enterItem db).psections.length =
      db.psections.length + items.countP (Item.opens first) := by
  induction items with
  | nil => exact fun _ _ => rfl
  | cons item items ih =>
    intro db hfirst
    obtain ⟨row, rows, hdb⟩ : ∃ row rows, db.psections = row :: rows := by
      cases hs : db.psections with
      | nil => simp [hs] at hfirst
      | cons row rows => exact ⟨row, rows, rfl⟩
    have hrow : row.psname = first := by simpa [hdb] using hfirst
    rw [List.foldl_cons]
    cases item with
    | header name =>
      rw [enterItem, IniDb.enterSection]
      by_cases hsame : Legacy.strcasecmp first name = true
      · have hany : (db.psections.head?.any fun s => Legacy.strcasecmp s.psname name) = true := by
          simp [hdb, hrow, hsame]
        rw [if_pos hany, ih { db with pcursect := 0 } hfirst, List.countP_cons_of_neg (by simp [Item.opens, hsame])]
      · have hany : ¬ (db.psections.head?.any fun s => Legacy.strcasecmp s.psname name) = true := by
          simp [hdb, hrow, hsame]
        rw [if_neg hany, ih _ (by simp [hdb, hrow]), List.countP_cons_of_pos (by simp [Item.opens, hsame]),
          List.length_append, List.length_singleton]
        omega
    | key name value =>
      have hdefault : withDefault db = db := if_neg (by simp [hdb])
      rw [enterItem, ih, addKey_eq, hdefault, List.length_modify,
        List.countP_cons_of_neg (by simp [Item.opens])]
      rw [addKey_eq, hdefault]
      cases hcur : db.pcursect with
      | zero => simp [hdb, hrow]
      | succ i => simp [hdb, hrow]

theorem length_psections_items (items : List Item) :
    (items.foldl enterItem {}).psections.length = sectionRows items := by
  cases items with
  | nil => rfl
  | cons item items =>
    cases item with
    | header name =>
      rw [List.foldl_cons, length_psections_foldl items _ (show _ = some name from rfl)]
      rfl
    | key name value =>
      rw [List.foldl_cons, length_psections_foldl items _ (show _ = some "Default".toList from rfl)]
      rfl

theorem holds_start (text : Str) : Holds { pbuf := text ++ ['\x00'] } 0 {} text where
  text := rfl
  tables := ⟨.nil, .nil, rfl, fun h => absurd rfl h⟩
  fits := ⟨Nat.zero_le _, Nat.zero_le _⟩

theorem fits_iff (text : Str) (db : IniDb) : Fits { pbuf := text ++ ['\x00'] } db ↔
    db.psections.length ≤ text.length / 4 ∧ db.pkeys.length ≤ text.length / 4 := by
  have hsize : ({ pbuf := text ++ ['\x00'] } : IniMemory).bufsize = text.length := by
    rw [bufsize, List.length_append, List.length_singleton, Nat.add_sub_cancel]
  rw [Fits, nsects, npairs, hsize]
  rfl

/-- What is kept of a file that has room: the tables of its texts. -/
theorem parseIniFile_takes (text : Str) : Takes (parseIniFile text) (Roomy text)
    fun m => ∃ pos, Tables m pos (Legacy.parseIniFile text) := by
  have hloop := (holds_start text).parseLoop (text.length + 1) (Nat.lt_succ_self _)
  have hroomy : Roomy text ↔ Fits { pbuf := text ++ ['\x00'] } ((itemsOf text).foldl enterItem {}) ∧
      ∀ item ∈ itemsOf text, ¬ item.RunsOut := by
    rw [fits_iff, length_psections_items, length_pkeys_foldl, List.length_nil, Nat.zero_add]
    exact ⟨fun h => ⟨⟨h.sections, h.keys⟩, h.ended⟩, fun h => ⟨h.1.1, h.1.2, h.2⟩⟩
  rw [hroomy, Legacy.parseIniFile, parseLoop_eq]
  exact hloop

/-- **The tables of the legacy INI scanner are large enough exactly for such
texts.** -/
theorem parseIniFile_isSome_iff (text : Str) : (parseIniFile text).isSome ↔ Roomy text :=
  (parseIniFile_takes text).isSome_iff

/-- Two keys without a value have three bytes each, two sections at the end of a
file seven, and a value at the end of a file has no byte behind it. -/
theorem parseIniFile_none : parseIniFile "a=\nb=\n".toList = none ∧
    parseIniFile "[x]\n[y]".toList = none ∧ parseIniFile "a=bcdef".toList = none := by decide

end IniMemory
end Legacy
end Launchpad
