/-
# The legacy INI lookups in their table

`inidb_find_key`, `inidb_get_key_name` and `inidb_get_key_value` of `src/inifile.c`
as they go over the key table: from the first row of the section on, which is
found as the difference of two pointers, and with every row they read checked to
be one of the table. A section without keys has a null pointer for its first row,
and what the difference is then is not defined; `nullDiff` stands for it. The two
accessors do not get that far, as they look at the number of keys first. So the
lookups of a section stay in the table exactly when it owns a key, or the
difference happens not to be negative (`lookups_inTable_iff`).
-/
import Launchpad.Legacy.IniRows

namespace Launchpad
namespace Legacy

/-- `ppairs - pkeys`. -/
def firstRow (nullDiff : ℤ) (s : SectionRow) : ℤ := s.ppairs.elim nullDiff fun k => k

namespace IniDb

variable (db : IniDb)

/-- Key row `i`. -/
def rowAt (i : ℤ) : Option KeyRow := if 0 ≤ i then db.pkeys[i.toNat]? else none

/-- The loop of the lookups, with so many rounds left, at row `i` and key `j` of the
section: the first of its keys that `found` holds of, with its index. -/
def keyLoop (sidx : ℕ) (found : ℕ → KeyRow → Bool) : ℕ → ℤ → ℕ → Option (Option (ℕ × KeyRow))
  | 0, _, _ => some none
  | n + 1, i, j => do
    let row ← db.rowAt i
    if row.psect = sidx then
      if found j row then some (some (j, row)) else keyLoop sidx found n (i + 1) (j + 1)
    else keyLoop sidx found n (i + 1) j

/-- The loop from the first row of a section to the last of the table. -/
def searchKeys (nullDiff : ℤ) (sidx : ℕ) (s : SectionRow) (found : ℕ → KeyRow → Bool) :
    Option (Option (ℕ × KeyRow)) :=
  db.keyLoop sidx found (db.pkeys.length - firstRow nullDiff s).toNat (firstRow nullDiff s) 0

/-- `inidb_find_key`; -1 is `none`. -/
def findKey (nullDiff : ℤ) (sidx : ℕ) (name : Str) : Option (Option ℕ) :=
  match db.psections[sidx]? with
  | none => some none
  | some s => (db.searchKeys nullDiff sidx s fun _ row => strcasecmp name row.pkname).map
      (Option.map Prod.fst)

/-- The row `inidb_get_key_name` and `inidb_get_key_value` look for. -/
def getKeyRow (nullDiff : ℤ) (sidx kidx : ℕ) : Option (Option KeyRow) :=
  match db.psections[sidx]? with
  | none => none
  | some s =>
    if kidx < s.npairs then
      (db.searchKeys nullDiff sidx s fun j _ => j = kidx).map (Option.map Prod.snd)
    else some none

def getKeyName (nullDiff : ℤ) (sidx kidx : ℕ) : Option (Option Str) :=
  (db.getKeyRow nullDiff sidx kidx).map (Option.map KeyRow.pkname)

def getKeyValue (nullDiff : ℤ) (sidx kidx : ℕ) : Option (Option Str) :=
  (db.getKeyRow nullDiff sidx kidx).map (Option.map KeyRow.pkvalue)

/-! ### The loop -/

variable {db} {sidx : ℕ} {found : ℕ → KeyRow → Bool}

/-- From row `k` on, the loop finds the first key of the section that passes. -/
theorem keyLoop_eq (n : ℕ) : ∀ (k j : ℕ), k + n = db.pkeys.length →
    db.keyLoop sidx found n k j =
      some (((((db.pkeys.drop k).filter fun row => row.psect = sidx).zipIdx j).find?
        fun p => found p.2 p.1).map Prod.swap) := by
  induction n with
  | zero =>
    intro k j hk
    rw [List.drop_of_length_le (by omega)]
    rfl
  | succ n ih =>
    intro k j hk
    have hlt : k < db.pkeys.length := by omega
    have hrow : db.rowAt k = some db.pkeys[k] := by
      rw [rowAt, if_pos (Int.natCast_nonneg k), Int.toNat_natCast, List.getElem?_eq_getElem hlt]
    have hnext : ((k : ℤ) + 1) = ((k + 1 : ℕ) : ℤ) := by push_cast; rfl
    rw [keyLoop, hrow, Option.bind_eq_bind, Option.bind_some, hnext,
      List.drop_eq_getElem_cons hlt]
    by_cases hsect : db.pkeys[k].psect = sidx
    · rw [if_pos hsect, List.filter_cons_of_pos (by simpa using hsect), List.zipIdx_cons]
      by_cases hfound : found j db.pkeys[k] = true
      · rw [if_pos hfound, List.find?_cons_of_pos (by simpa using hfound)]
        rfl
      · rw [if_neg hfound, List.find?_cons_of_neg (by simpa using hfound)]
        exact ih (k + 1) (j + 1) (by omega)
    · rw [if_neg hsect, List.filter_cons_of_neg (by simpa using hsect)]
      exact ih (k + 1) j (by omega)

/-- The loop that is started at row `k`, in the table or after it. -/
theorem keyLoop_start (k : ℕ) : db.keyLoop sidx found (db.pkeys.length - (k : ℤ)).toNat k 0 =
    some (((((db.pkeys.drop k).filter fun row => row.psect = sidx).zipIdx 0).find?
      fun p => found p.2 p.1).map Prod.swap) := by
  by_cases hk : k ≤ db.pkeys.length
  · exact keyLoop_eq _ k 0 (by omega)
  · have hzero : (db.pkeys.length - (k : ℤ)).toNat = 0 := by omega
    rw [hzero, List.drop_of_length_le (by omega)]
    rfl

/-- A loop that starts before the table leaves it at once. -/
theorem keyLoop_of_neg {n : ℕ} {i : ℤ} (hn : n ≠ 0) (hi : i < 0) (j : ℕ) :
    db.keyLoop sidx found n i j = none := by
  cases n with
  | zero => exact absurd rfl hn
  | succ n =>
    rw [keyLoop, rowAt, if_neg (by omega)]
    rfl

variable {nullDiff : ℤ} {s : SectionRow}

theorem searchKeys_isSome_iff (hkeys : db.pkeys ≠ []) :
    (db.searchKeys nullDiff sidx s found).isSome = true ↔
      s.ppairs.isSome = true ∨ 0 ≤ nullDiff := by
  have hpos : 0 < db.pkeys.length := List.length_pos_iff.mpr hkeys
  have hdefined : ∀ k : ℕ, (db.keyLoop sidx found (db.pkeys.length - (k : ℤ)).toNat k 0).isSome = true := by
    intro k
    rw [keyLoop_start]
    rfl
  unfold searchKeys firstRow
  cases hpairs : s.ppairs with
  | some k => exact iff_of_true (hdefined k) (Or.inl rfl)
  | none =>
    simp only [Option.elim_none, Option.isSome_none, Bool.false_eq_true, false_or]
    constructor
    · intro hsome
      by_contra hneg
      rw [keyLoop_of_neg (by omega) (by omega)] at hsome
      exact Bool.noConfusion hsome
    · intro hnonneg
      obtain ⟨k, rfl⟩ := Int.eq_ofNat_of_zero_le hnonneg
      exact hdefined k

end IniDb

/-! ### Reading back -/

variable {db : IniDb} {sidx kidx : ℕ} {nullDiff : ℤ} {s : SectionRow}

theorem find?_zipIdx_index {α : Type*} (i : ℕ) : ∀ (l : List α) (j : ℕ),
    ((l.zipIdx j).find? fun p => p.2 = j + i).map Prod.fst = l[i]?
  | [], _ => rfl
  | x :: l, j => by
    rw [List.zipIdx_cons]
    cases i with
    | zero =>
      rw [List.find?_cons_of_pos (p := fun p : α × ℕ => p.2 = j + 0) (by simp)]
      rfl
    | succ i =>
      have hindex : j + (i + 1) = j + 1 + i := by omega
      rw [List.find?_cons_of_neg (p := fun p : α × ℕ => p.2 = j + (i + 1)) (by simp),
        List.getElem?_cons_succ, hindex]
      exact find?_zipIdx_index i l (j + 1)

theorem find?_zipIdx_first {α : Type*} (f : α → Bool) : ∀ (l : List α) (j : ℕ),
    ((l.zipIdx j).find? fun p => f p.1).map Prod.snd = (l.findIdx? f).map (· + j)
  | [], _ => rfl
  | x :: l, j => by
    rw [List.zipIdx_cons, List.findIdx?_cons]
    by_cases hx : f x = true
    · rw [List.find?_cons_of_pos (p := fun p : α × ℕ => f p.1) hx, if_pos hx]
      exact congrArg some (Nat.zero_add j).symm
    · rw [List.find?_cons_of_neg (p := fun p : α × ℕ => f p.1) hx, if_neg hx,
        find?_zipIdx_first f l (j + 1), Option.map_map]
      congr 1
      funext k
      exact (Nat.succ_add_eq_add_succ k j).symm

/-- The loop over a section that owns a key. -/
theorem TablesInv.searchKeys (h : TablesInv db) (hs : db.psections[sidx]? = some s)
    (howns : 0 < s.npairs) (found : ℕ → KeyRow → Bool) :
    db.searchKeys nullDiff sidx s found =
      some (((db.keysOf sidx).zipIdx.find? fun p => found p.2 p.1).map Prod.swap) := by
  obtain ⟨k, hk⟩ := Option.isSome_iff_exists.mp ((h.owns sidx s hs).mpr howns)
  have hstart : firstRow nullDiff s = k := by
    rw [firstRow, hk]
    rfl
  rw [IniDb.searchKeys, hstart, IniDb.keyLoop_start, (h.rows sidx s hs).drop_eq hk]

/-- In the table, the accessors find the row of the key. -/
theorem TablesInv.getKeyRow (h : TablesInv db) (hs : db.psections[sidx]? = some s) (kidx : ℕ) :
    db.getKeyRow nullDiff sidx kidx = some (keyRow db sidx kidx) := by
  simp only [IniDb.getKeyRow, hs]
  by_cases hlt : kidx < s.npairs
  · have hindex := find?_zipIdx_index kidx (db.keysOf sidx) 0
    rw [Nat.zero_add] at hindex
    rw [if_pos hlt, h.searchKeys hs (Nat.zero_lt_of_lt hlt), keyRow_eq hs (h.rows sidx s hs) hlt,
      ← hindex, Option.map_some, Option.map_map]
    rfl
  · rw [if_neg hlt, keyRow, hs, Option.bind_some, if_neg hlt]

/-- The key a section that owns one has under a name. -/
theorem TablesInv.findKey (h : TablesInv db) (hs : db.psections[sidx]? = some s)
    (howns : 0 < s.npairs) (name : Str) : db.findKey nullDiff sidx name =
      some ((db.keysOf sidx).findIdx? fun row => strcasecmp name row.pkname) := by
  simp only [IniDb.findKey, hs]
  rw [h.searchKeys hs howns, Option.map_some, Option.map_map]
  have hfirst := find?_zipIdx_first (fun row => strcasecmp name row.pkname) (db.keysOf sidx) 0
  rw [show (fun k => k + 0) = id from rfl, Option.map_id_apply] at hfirst
  rw [← hfirst]
  rfl

/-- In a section without keys nothing is found, wherever the loop starts in the table. -/
theorem keyLoop_of_no_keys {found : ℕ → KeyRow → Bool} (hnil : db.keysOf sidx = []) (k : ℕ) :
    db.keyLoop sidx found (db.pkeys.length - (k : ℤ)).toNat k 0 = some none := by
  have hsub : List.Sublist ((db.pkeys.drop k).filter fun row => row.psect = sidx) (db.keysOf sidx) :=
    (List.drop_sublist k db.pkeys).filter _
  rw [hnil] at hsub
  rw [IniDb.keyLoop_start, List.sublist_nil.mp hsub]
  rfl

/-- The lookup of a name, and when it stays in the table. -/
theorem TablesInv.findKey_takes (h : TablesInv db) (hkeys : db.pkeys ≠ [])
    (hs : db.psections[sidx]? = some s) (name : Str) :
    Runs.Takes (db.findKey nullDiff sidx name) (0 < s.npairs ∨ 0 ≤ nullDiff)
      fun found => found = (db.keysOf sidx).findIdx? fun row => strcasecmp name row.pkname := by
  by_cases howns : 0 < s.npairs
  · rw [h.findKey hs howns name]
    exact Runs.takes_some rfl (Or.inl howns)
  · have hnone : s.ppairs = none := by
      rw [← Option.not_isSome_iff_eq_none, h.owns sidx s hs]
      exact howns
    have hnil : db.keysOf sidx = [] := by
      rw [← List.length_eq_zero_iff, ← (h.rows sidx s hs).count]
      omega
    simp only [IniDb.findKey, hs]
    by_cases hnonneg : 0 ≤ nullDiff
    · obtain ⟨k, rfl⟩ := Int.eq_ofNat_of_zero_le hnonneg
      have hstart : firstRow k s = k := by
        rw [firstRow, hnone]
        rfl
      rw [IniDb.searchKeys, hstart, keyLoop_of_no_keys hnil, hnil]
      exact Runs.takes_some rfl (Or.inr hnonneg)
    · have hundefined : db.searchKeys nullDiff sidx s (fun _ row => strcasecmp name row.pkname) = none := by
        rw [← Option.not_isSome_iff_eq_none, IniDb.searchKeys_isSome_iff hkeys, hnone]
        simpa using hnonneg
      rw [hundefined]
      exact Runs.takes_none fun hok => hok.elim howns hnonneg

/-! ### The lookups of a section -/

/-- Whatever is looked up in the section, only rows of the table are read. -/
def LookupsInTable (db : IniDb) (nullDiff : ℤ) (sidx : ℕ) : Prop :=
  ∀ name kidx, (db.findKey nullDiff sidx name).isSome = true ∧
    (db.getKeyName nullDiff sidx kidx).isSome = true ∧
    (db.getKeyValue nullDiff sidx kidx).isSome = true

theorem TablesInv.lookups_iff (h : TablesInv db) (hkeys : db.pkeys ≠ [])
    (hs : db.psections[sidx]? = some s) :
    LookupsInTable db nullDiff sidx ↔ 0 < s.npairs ∨ 0 ≤ nullDiff := by
  have hfind : ∀ name, (db.findKey nullDiff sidx name).isSome = true ↔
      0 < s.npairs ∨ 0 ≤ nullDiff := by
    intro name
    simp only [IniDb.findKey, hs, Option.isSome_map]
    rw [IniDb.searchKeys_isSome_iff hkeys, h.owns sidx s hs]
  constructor
  · exact fun hin => (hfind []).mp (hin [] 0).1
  · intro howns name kidx
    refine ⟨(hfind name).mpr howns, ?_, ?_⟩
    · rw [IniDb.getKeyName, h.getKeyRow hs]
      rfl
    · rw [IniDb.getKeyValue, h.getKeyRow hs]
      rfl

theorem section_of_find {name : Str} (h : inidbFindSection db name = some sidx) :
    ∃ s, db.psections[sidx]? = some s ∧ inidbGetNumberOfKeys db sidx = s.npairs := by
  obtain ⟨hlt, -, -⟩ := List.findIdx?_eq_some_iff_getElem.mp h
  have hs := List.getElem?_eq_getElem hlt
  exact ⟨_, hs, by rw [inidbGetNumberOfKeys, hs]; rfl⟩

/-- **Lookups in the table.** The lookups of a section that is found stay in the key
table if and only if the section owns a key, or the difference with a null pointer
is not negative. -/
theorem lookups_inTable_iff {text : Str} (hopen : inidbOpen text = some db) {name : Str}
    (hfind : inidbFindSection db name = some sidx) (nullDiff : ℤ) :
    LookupsInTable db nullDiff sidx ↔ 0 < inidbGetNumberOfKeys db sidx ∨ 0 ≤ nullDiff := by
  obtain ⟨s, hs, hcount⟩ := section_of_find hfind
  rw [hcount]
  exact (tablesInv_open hopen).lookups_iff (inidbOpen_eq_some hopen).2 hs

/-- A section with a key. -/
def ownedText : Str := "[Settings]\nTrailer = Enter\n[Actions]\nR = !sync\n".toList

theorem lookups_inTable_owned : LookupsInTable (parseIniFile ownedText) (-1) 0 := by
  have hopen : inidbOpen ownedText = some (parseIniFile ownedText) := by decide +kernel
  have hfind : inidbFindSection (parseIniFile ownedText) "settings".toList = some 0 := by decide +kernel
  exact (lookups_inTable_iff hopen hfind (-1)).mpr (Or.inl (by decide +kernel))

/-- The lookup of a key under a bare header reads a row before the table. -/
theorem not_lookups_inTable_bare :
    ¬ ∀ (text : Str) (db : IniDb) (name : Str) (sidx : ℕ) (nullDiff : ℤ),
      inidbOpen text = some db → inidbFindSection db name = some sidx →
      LookupsInTable db nullDiff sidx := by
  intro hall
  have hin := hall "[Settings]
[Actions]
R = !sync
".toList _ "Settings".toList 0 (-1) rfl
    (by decide +kernel) "Introducer".toList 0
  exact absurd hin.1 (by decide +kernel)

end Legacy
end Launchpad
