/-
# The rows of the legacy INI tables

`DbInv` says what the tables stand for as long as no section is entered again.
Less holds of every text (`tablesInv_parseIniFile`): a key row is in a section of
the table, and a section counts its rows from its first one on and has a first one
if it has any. So every index reads back the rows of its section
(`TablesInv.readSection`), whether or not its name is another's too.
-/
import Launchpad.Legacy.IniRoom

namespace Launchpad
namespace Legacy

open IniMemory (Item itemsOf enterItem)

/-- What holds of the tables of every text. -/
structure TablesInv (db : IniDb) : Prop where
  current : db.psections ≠ [] → db.pcursect < db.psections.length
  inSection : ∀ row ∈ db.pkeys, row.psect < db.psections.length
  rows : ∀ sidx s, db.psections[sidx]? = some s → RowsOf db sidx s
  owns : ∀ (sidx : ℕ) (s : SectionRow), db.psections[sidx]? = some s → (s.ppairs.isSome = true ↔ 0 < s.npairs)

theorem tablesInv_init : TablesInv {} where
  current := fun h => absurd rfl h
  inSection := List.forall_mem_nil _
  rows := fun sidx s h => by simp at h
  owns := fun sidx s h => by simp at h

variable {db : IniDb}

namespace TablesInv

/-- A section is added at the end, with no rows. -/
theorem addSection (h : TablesInv db) (name : Str) : TablesInv { db with
    psections := db.psections ++ [{ psname := name }]
    pcursect := db.psections.length } := by
  have hlength : (db.psections ++ [({ psname := name } : SectionRow)]).length =
      db.psections.length + 1 := by simp
  refine ⟨fun _ => ?_, fun row hrow => ?_, fun sidx s hs => ?_, fun sidx s hs => ?_⟩
  · rw [hlength]
    exact Nat.lt_succ_self _
  · rw [hlength]
    exact Nat.lt_succ_of_lt (h.inSection row hrow)
  · exact rowsOf_addSection h.inSection h.rows name sidx s hs
  · by_cases hlt : sidx < db.psections.length
    · rw [List.getElem?_append_left hlt] at hs
      exact h.owns sidx s hs
    · rw [List.getElem?_append_right (by omega)] at hs
      obtain rfl : s = { psname := name } := List.mem_singleton.mp (List.mem_of_getElem? hs)
      exact iff_of_false Bool.false_ne_true (Nat.lt_irrefl 0)

theorem enterSection (h : TablesInv db) (name : Str) : TablesInv (db.enterSection name) := by
  unfold IniDb.enterSection
  split_ifs with hfirst
  · refine ⟨fun hsome => List.length_pos_iff.mpr hsome, h.inSection, fun sidx s hs => ?_, h.owns⟩
    exact (h.rows sidx s hs).of_pkeys rfl
  · exact h.addSection name

/-- A key is added to the current section. -/
theorem addRow (h : TablesInv db) (hsome : db.psections ≠ []) (key value : Str) :
    TablesInv (db.addKey key value) := by
  rw [IniDb.addKey_of_section hsome]
  refine ⟨fun _ => ?_, fun row hrow => ?_, fun sidx s hs => ?_, fun sidx s hs => ?_⟩
  · rw [List.length_modify]
    exact h.current hsome
  · rw [List.length_modify]
    rcases List.mem_append.mp hrow with hold | hnew
    · exact h.inSection row hold
    · rw [List.mem_singleton.mp hnew]
      exact h.current hsome
  · simp only [List.getElem?_modify] at hs
    obtain ⟨old, hold, rfl⟩ := Option.map_eq_some_iff.mp hs
    exact (h.rows sidx old hold).addRow ⟨key, value, db.pcursect⟩ _
  · simp only [List.getElem?_modify] at hs
    obtain ⟨old, hold, rfl⟩ := Option.map_eq_some_iff.mp hs
    split_ifs
    · exact iff_of_true rfl (Nat.succ_pos _)
    · exact h.owns sidx old hold

theorem addKey (h : TablesInv db) (key value : Str) : TablesInv (db.addKey key value) := by
  by_cases hempty : db.psections = []
  · rw [IniDb.addKey_of_empty hempty]
    exact (h.addSection "Default".toList).addRow (by simp) key value
  · exact h.addRow hempty key value

theorem enterItem (h : TablesInv db) (item : Item) : TablesInv (enterItem db item) := by
  cases item with
  | header name => exact h.enterSection name
  | key name value => exact h.addKey name _

theorem foldl (items : List Item) (h : TablesInv db) :
    TablesInv (items.foldl IniMemory.enterItem db) := by
  induction items generalizing db with
  | nil => exact h
  | cons item items ih => exact ih (h.enterItem item)

end TablesInv

theorem parseIniFile_eq (text : Str) : parseIniFile text = (itemsOf text).foldl enterItem {} :=
  IniMemory.parseLoop_eq _ _ _

theorem tablesInv_parseIniFile (text : Str) : TablesInv (parseIniFile text) := by
  rw [parseIniFile_eq]
  exact tablesInv_init.foldl (itemsOf text)

theorem inidbOpen_eq_some {text : Str} (h : inidbOpen text = some db) :
    db = parseIniFile text ∧ db.pkeys ≠ [] := by
  simp only [inidbOpen] at h
  split_ifs at h with hnone
  obtain rfl := Option.some.inj h
  exact ⟨rfl, hnone⟩

theorem tablesInv_open {text : Str} (h : inidbOpen text = some db) : TablesInv db := by
  rw [(inidbOpen_eq_some h).1]
  exact tablesInv_parseIniFile text

/-- Every index reads back the rows of its section. -/
theorem TablesInv.readSection (h : TablesInv db) (sidx : ℕ) :
    readSection db sidx = (db.keysOf sidx).map KeyRow.entry := by
  cases hs : db.psections[sidx]? with
  | some s => exact readSection_eq hs (h.rows sidx s hs)
  | none =>
    have hnone : db.keysOf sidx = [] := by
      refine List.filter_eq_nil_iff.mpr fun row hrow heq => ?_
      have hlt := h.inSection row hrow
      rw [of_decide_eq_true heq] at hlt
      exact absurd hlt (Nat.not_lt.mpr (List.getElem?_eq_none_iff.mp hs))
    rw [hnone, Legacy.readSection, inidbGetNumberOfKeys, hs]
    rfl

/-! ### The strings of a row -/

/-- The name and the value of a row are not empty, and the value has no zero byte. -/
structure CleanRow (row : KeyRow) : Prop where
  name : row.pkname ≠ []
  value : row.pkvalue ≠ []
  ended : '\x00' ∉ row.pkvalue

theorem take_ne_nil {s : Str} {n : ℕ} (hpos : 0 < n) (hle : n ≤ s.length) : s.take n ≠ [] := by
  intro hnil
  rcases List.take_eq_nil_iff.mp hnil with hzero | hempty
  · omega
  · rw [hempty] at hle
    exact absurd hpos (Nat.not_lt.mpr hle)

/-- A key is found under a name that is not empty. -/
theorem name_of_itemAt {p name value : Str} (h : IniMemory.itemAt p = some (.key name value)) :
    name ≠ [] := by
  simp only [IniMemory.itemAt] at h
  split_ifs at h with hend hsection hlen hcomment hkey
  · cases Option.some.inj h
  · cases Option.some.inj h
    obtain ⟨hle, -⟩ := IniMemory.parseKeyName_le hkey
    exact take_ne_nil hkey (hle.trans (List.takeWhile_prefix _).length_le)

theorem clean_enterItem (h : ∀ row ∈ db.pkeys, CleanRow row) {item : Item} {p : Str}
    (hitem : IniMemory.itemAt p = some item) : ∀ row ∈ (enterItem db item).pkeys, CleanRow row := by
  intro row hrow
  cases item with
  | header name =>
    have hsame : (db.enterSection name).pkeys = db.pkeys := by
      unfold IniDb.enterSection
      split_ifs <;> rfl
    exact h row (hsame ▸ hrow)
  | key name value =>
    rcases List.mem_append.mp hrow with hold | hnew
    · have hsame : (if db.psections = [] then
          { db with psections := [{ psname := "Default".toList }], pcursect := 0 } else db).pkeys =
          db.pkeys := by
        split_ifs <;> rfl
      exact h row (hsame ▸ hold)
    · have hle := IniMemory.parseKeyValue_le value
      rw [List.mem_singleton.mp hnew]
      refine ⟨name_of_itemAt hitem, ?_, ?_⟩
      · show (if parseKeyValue value > 0 then _ else _) ≠ []
        split_ifs with hvalue
        · exact take_ne_nil hvalue (hle.trans (List.takeWhile_prefix _).length_le)
        · decide
      · show '\x00' ∉ (if parseKeyValue value > 0 then _ else _)
        split_ifs with hvalue
        · exact IniMemory.notMem_take_of_le (by decide) hle
        · decide

theorem clean_parseIniFile (text : Str) : ∀ row ∈ (parseIniFile text).pkeys, CleanRow row := by
  have hitems : ∀ item ∈ itemsOf text, ∃ p, IniMemory.itemAt p = some item := by
    intro item hitem
    obtain ⟨p, -, hp⟩ := List.mem_filterMap.mp hitem
    exact ⟨p, hp⟩
  have hfold : ∀ (items : List Item) (db : IniDb), (∀ row ∈ db.pkeys, CleanRow row) →
      (∀ item ∈ items, ∃ p, IniMemory.itemAt p = some item) →
      ∀ row ∈ (items.foldl enterItem db).pkeys, CleanRow row := by
    intro items
    induction items with
    | nil => exact fun _ h _ => h
    | cons item items ih =>
      intro db h hall
      obtain ⟨p, hp⟩ := hall item List.mem_cons_self
      exact ih _ (clean_enterItem h hp) fun j hj => hall j (List.mem_cons_of_mem item hj)
  rw [parseIniFile_eq]
  exact hfold _ {} (List.forall_mem_nil _) hitems

theorem clean_open {text : Str} (h : inidbOpen text = some db) : ∀ row ∈ db.pkeys, CleanRow row := by
  rw [(inidbOpen_eq_some h).1]
  exact clean_parseIniFile text

end Legacy
end Launchpad
