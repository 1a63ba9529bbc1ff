/-
# The legacy INI tables

A section has an index, and a key row the index of its section. The tables stand
for entries with the names of their sections (`DbInv`), as long as no section is
entered that has been left: then a row is added for every key, a section for
every name, and read back, a section has its entries (`pairs_of_inv`).
-/
import Launchpad.Config.IniText
import Launchpad.Legacy.IniFile

namespace Launchpad
namespace Legacy

open IniDocument

theorem strcasecmp_iff (s t : Str) : strcasecmp s t = true ↔ normalizeKey s = normalizeKey t :=
  decide_eq_true_iff

namespace IniDb

/-- The names of the sections, in lower case. -/
def names (db : IniDb) : List Str := db.psections.map fun s => normalizeKey s.psname

/-- The key rows of a section. -/
def keysOf (db : IniDb) (sidx : ℕ) : List KeyRow := db.pkeys.filter fun row => row.psect = sidx

end IniDb

def KeyRow.entry (row : KeyRow) : IniEntry := ⟨row.pkname, row.pkvalue⟩

/-- A section counts its rows, and its first row has none before it. -/
structure RowsOf (db : IniDb) (sidx : ℕ) (s : SectionRow) : Prop where
  count : s.npairs = (db.keysOf sidx).length
  first_le : s.ppairs.getD db.pkeys.length ≤ db.pkeys.length
  before : (db.pkeys.take (s.ppairs.getD db.pkeys.length)).filter (fun row => row.psect = sidx) = []

/-- The tables stand for entries, each with its section: `tag` is the current
section, and the sections after the first are among those `entered`. -/
structure DbInv (db : IniDb) (tag : Str) (entered : List Str) (es : List (Str × IniEntry)) : Prop where
  distinct : db.names.Nodup
  later : ∀ name ∈ db.names.drop 1, name ∈ entered
  current : db.names[db.pcursect]? = some (normalizeKey tag) ∨
    db.psections = [] ∧ normalizeKey tag = normalizeKey "Default".toList
  rows : List.Forall₂ (fun row e => row.entry = e.2 ∧ db.names[row.psect]? = some (normalizeKey e.1))
    db.pkeys es
  counts : ∀ sidx s, db.psections[sidx]? = some s → RowsOf db sidx s

theorem dbInv_init : DbInv {} "Default".toList [] [] where
  distinct := List.nodup_nil
  later := List.forall_mem_nil _
  current := .inr ⟨rfl, rfl⟩
  rows := .nil
  counts := fun sidx s h => by simp at h

variable {db : IniDb} {tag : Str} {entered : List Str} {es : List (Str × IniEntry)}

theorem DbInv.psect_lt (h : DbInv db tag entered es) : ∀ row ∈ db.pkeys, row.psect < db.psections.length := by
  intro row hrow
  obtain ⟨i, hi, rfl⟩ := List.mem_iff_getElem.mp hrow
  have hlength := h.rows.length_eq
  obtain ⟨_, hname⟩ := h.rows.get hi (by omega)
  obtain ⟨hlt, _⟩ := List.getElem?_eq_some_iff.mp hname
  simpa [IniDb.names] using hlt

/-! ### Sections -/

/-- Only the key rows matter. -/
theorem RowsOf.of_pkeys {db' : IniDb} {sidx : ℕ} {s : SectionRow} (h : RowsOf db sidx s)
    (heq : db'.pkeys = db.pkeys) : RowsOf db' sidx s := by
  obtain ⟨hcount, hfirst, hbefore⟩ := h
  rw [← heq] at hfirst hbefore
  refine ⟨?_, hfirst, hbefore⟩
  rw [IniDb.keysOf, heq]
  exact hcount

/-- A section that no row points to. -/
theorem rowsOf_new {sidx : ℕ} (h : ∀ row ∈ db.pkeys, row.psect ≠ sidx) (name : Str) :
    RowsOf db sidx { psname := name } := by
  have hnone : ∀ row ∈ db.pkeys, ¬ decide (row.psect = sidx) = true :=
    fun row hrow heq => h row hrow (of_decide_eq_true heq)
  refine ⟨?_, le_rfl, ?_⟩
  · exact (congrArg List.length (List.filter_eq_nil_iff.mpr hnone)).symm
  · exact List.filter_eq_nil_iff.mpr fun row hrow => hnone row (List.mem_of_mem_take hrow)

/-- The counts go with a section that is added at the end. -/
theorem rowsOf_addSection (hpsect : ∀ row ∈ db.pkeys, row.psect < db.psections.length)
    (h : ∀ sidx s, db.psections[sidx]? = some s → RowsOf db sidx s) (name : Str) (sidx : ℕ)
    (s : SectionRow) (hs : (db.psections ++ [{ psname := name }])[sidx]? = some s) :
    RowsOf { db with
      psections := db.psections ++ [{ psname := name }]
      pcursect := db.psections.length } sidx s := by
  by_cases hlt : sidx < db.psections.length
  · rw [List.getElem?_append_left hlt] at hs
    exact (h sidx s hs).of_pkeys rfl
  · rw [List.getElem?_append_right (by omega)] at hs
    obtain rfl : s = { psname := name } := List.mem_singleton.mp (List.mem_of_getElem? hs)
    refine rowsOf_new (fun row hrow => ?_) name
    have hsect := hpsect row hrow
    omega

/-- A section is added at the end, with no rows. -/
theorem DbInv.addSection (h : DbInv db tag entered es) {name : Str} {entered' : List Str}
    (hfresh : normalizeKey name ∉ db.names)
    (hlater : ∀ n ∈ (db.names ++ [normalizeKey name]).drop 1, n ∈ entered') :
    DbInv { db with
      psections := db.psections ++ [{ psname := name }]
      pcursect := db.psections.length } name entered' es := by
  have hnames : IniDb.names { db with
      psections := db.psections ++ [{ psname := name }], pcursect := db.psections.length } =
      db.names ++ [normalizeKey name] := by simp [IniDb.names]
  have hlength : db.names.length = db.psections.length := List.length_map _
  refine ⟨?_, hnames ▸ hlater, .inl ?_, ?_, ?_⟩
  · rw [hnames]
    exact h.distinct.append (List.nodup_singleton _) (by simpa using hfresh)
  · rw [hnames, ← hlength]
    simp
  · refine h.rows.imp ?_
    rintro row e ⟨hentry, hname⟩
    refine ⟨hentry, ?_⟩
    rw [hnames, List.getElem?_append_left (List.getElem?_eq_some_iff.mp hname).1, hname]
  · exact rowsOf_addSection h.psect_lt h.counts name

/-- A name that has not been entered yet becomes the current section. -/
theorem DbInv.enterSection (h : DbInv db tag entered es) {name : Str} (hnew : normalizeKey name ∉ entered) :
    DbInv (db.enterSection name) name (normalizeKey name :: entered) es := by
  by_cases hhead : db.psections.head?.any (fun s => strcasecmp s.psname name) = true
  · rw [IniDb.enterSection, if_pos hhead]
    obtain ⟨s, hs, hname⟩ := Option.any_eq_true _ _ |>.mp hhead
    refine ⟨h.distinct, fun n hn => List.mem_cons_of_mem _ (h.later n hn), .inl ?_, h.rows, ?_⟩
    · have hzero : db.names[0]? = some (normalizeKey s.psname) := by
        rw [IniDb.names, List.getElem?_map, ← List.head?_eq_getElem?, hs]
        rfl
      exact hzero.trans (congrArg some ((strcasecmp_iff _ _).mp hname))
    · intro sidx s hs
      exact (h.counts sidx s hs).of_pkeys rfl
  · rw [IniDb.enterSection, if_neg hhead]
    by_cases hempty : db.psections = []
    · have hnil : db.names = [] := by rw [IniDb.names, hempty, List.map_nil]
      exact h.addSection (by simp [hnil]) (by simp [hnil])
    · obtain ⟨s, rest, hsections⟩ := List.exists_cons_of_ne_nil hempty
      have hcons : db.names = normalizeKey s.psname :: db.names.drop 1 := by simp [IniDb.names, hsections]
      apply h.addSection
      · rw [hcons]
        intro hmem
        rcases List.mem_cons.mp hmem with heq | hmem
        · apply hhead
          rw [hsections]
          exact (strcasecmp_iff _ _).mpr heq.symm
        · exact hnew (h.later _ hmem)
      · intro n hn
        rw [hcons, List.cons_append, List.drop_succ_cons, List.drop_zero] at hn
        rcases List.mem_append.mp hn with hold | hn
        · exact List.mem_cons_of_mem _ (h.later n hold)
        · rw [List.mem_singleton.mp hn]
          exact List.mem_cons_self

/-! ### Keys -/

theorem IniDb.addKey_of_section (h : db.psections ≠ []) (name value : Str) :
    db.addKey name value = { db with
      pkeys := db.pkeys ++ [⟨name, value, db.pcursect⟩]
      psections := db.psections.modify db.pcursect fun s =>
        { s with ppairs := some (s.ppairs.getD db.pkeys.length), npairs := s.npairs + 1 } } := by
  simp only [IniDb.addKey, if_neg h]

/-- Without a section, the default one comes first. -/
theorem IniDb.addKey_of_empty (h : db.psections = []) (name value : Str) :
    db.addKey name value = ({ db with
      psections := db.psections ++ [{ psname := "Default".toList }]
      pcursect := db.psections.length } : IniDb).addKey name value := by
  simp [IniDb.addKey, h]

/-- A key leaves the names of the sections as they are. -/
theorem names_addKey (h : db.psections ≠ []) (name value : Str) :
    (db.addKey name value).names = db.names := by
  rw [IniDb.addKey_of_section h]
  apply List.ext_getElem?
  intro i
  simp only [IniDb.names, List.getElem?_map, List.getElem?_modify]
  split_ifs
  · cases db.psections[i]? <;> rfl
  · cases db.psections[i]? <;> rfl

/-- The counts go with a row that is added. -/
theorem RowsOf.addRow {sidx : ℕ} {s : SectionRow} (h : RowsOf db sidx s) (row : KeyRow)
    (sections : List SectionRow) :
    RowsOf { db with pkeys := db.pkeys ++ [row], psections := sections } sidx
      (if row.psect = sidx then
        { s with ppairs := some (s.ppairs.getD db.pkeys.length), npairs := s.npairs + 1 } else s) := by
  obtain ⟨hcount, hfirst, hbefore⟩ := h
  have hlength : (db.pkeys ++ [row]).length = db.pkeys.length + 1 := by simp
  by_cases hrow : row.psect = sidx
  · rw [if_pos hrow]
    refine ⟨?_, ?_, ?_⟩
    · simp [IniDb.keysOf, List.filter_append, hrow, hcount]
    · simp only [Option.getD_some, hlength]
      omega
    · simp only [Option.getD_some]
      rw [List.take_append_of_le_length hfirst]
      exact hbefore
  · rw [if_neg hrow]
    refine ⟨?_, ?_, ?_⟩
    · simp [IniDb.keysOf, List.filter_append, hrow, hcount]
    · cases hpairs : s.ppairs with
      | none => simp
      | some k =>
        simp only [hpairs, Option.getD_some] at hfirst
        simp only [Option.getD_some, hlength]
        omega
    · cases hpairs : s.ppairs with
      | none =>
        simp only [hpairs, Option.getD_none, List.take_length] at hbefore
        rw [Option.getD_none, List.take_length, List.filter_append, hbefore]
        simp [hrow]
      | some k =>
        simp only [hpairs, Option.getD_some] at hfirst hbefore
        simp only [Option.getD_some]
        rw [List.take_append_of_le_length hfirst]
        exact hbefore

/-- A key is added to the current section. -/
theorem DbInv.addRow (h : DbInv db tag entered es) (hsome : db.psections ≠ []) (key value : Str) :
    DbInv (db.addKey key value) tag entered (es ++ [(tag, ⟨key, value⟩)]) := by
  have hadd := IniDb.addKey_of_section hsome key value
  have hnames := names_addKey hsome key value
  have hcurrent : db.names[db.pcursect]? = some (normalizeKey tag) := by
    rcases h.current with hcurrent | ⟨hnone, _⟩
    · exact hcurrent
    · exact absurd hnone hsome
  refine ⟨hnames ▸ h.distinct, hnames ▸ h.later, .inl ?_, ?_, ?_⟩
  · rw [hnames, hadd]
    exact hcurrent
  · rw [hnames, hadd]
    exact List.rel_append h.rows (.cons ⟨rfl, hcurrent⟩ .nil)
  · intro sidx s hs
    rw [hadd] at hs ⊢
    simp only [List.getElem?_modify] at hs
    obtain ⟨old, hold, rfl⟩ := Option.map_eq_some_iff.mp hs
    exact (h.counts sidx old hold).addRow ⟨key, value, db.pcursect⟩ _

/-- The current section is known by its name in any case. -/
theorem DbInv.tag_eq (h : DbInv db tag entered es) {tag' : Str} (heq : normalizeKey tag = normalizeKey tag') :
    DbInv db tag' entered es := by
  obtain ⟨hdistinct, hlater, hcurrent, hrows, hcounts⟩ := h
  rw [heq] at hcurrent
  exact ⟨hdistinct, hlater, hcurrent, hrows, hcounts⟩

/-- Without a section, a key makes the default one. -/
theorem DbInv.addKey (h : DbInv db tag entered es) (key value : Str) :
    DbInv (db.addKey key value) tag entered (es ++ [(tag, ⟨key, value⟩)]) := by
  by_cases hempty : db.psections = []
  · have hnil : db.names = [] := by rw [IniDb.names, hempty, List.map_nil]
    have htag : normalizeKey "Default".toList = normalizeKey tag := by
      rcases h.current with hcurrent | ⟨_, htag⟩
      · simp [hnil] at hcurrent
      · exact htag.symm
    have hsection : DbInv { db with
        psections := db.psections ++ [{ psname := "Default".toList }]
        pcursect := db.psections.length } "Default".toList entered es :=
      h.addSection (by simp [hnil]) (by simp [hnil])
    rw [IniDb.addKey_of_empty hempty]
    exact (hsection.tag_eq htag).addRow (by simp) key value
  · exact h.addRow hempty key value

/-! ### Reading back -/

/-- The rows of a section are its entries. -/
theorem entries_of_rows {names : List Str} (hdistinct : names.Nodup) {name : Str} {sidx : ℕ}
    (hname : names[sidx]? = some (normalizeKey name)) {rows : List KeyRow} {es : List (Str × IniEntry)}
    (h : List.Forall₂ (fun row e => row.entry = e.2 ∧ names[row.psect]? = some (normalizeKey e.1))
      rows es) :
    (rows.filter fun row => row.psect = sidx).map KeyRow.entry = entriesUnder name es := by
  induction h with
  | nil => rfl
  | @cons row e rows es hrow _ ih =>
    obtain ⟨hentry, hsect⟩ := hrow
    have hiff : row.psect = sidx ↔ normalizeKey e.1 = normalizeKey name := by
      constructor
      · rintro rfl
        exact Option.some.inj (hsect.symm.trans hname)
      · intro heq
        have hlt := (List.getElem?_eq_some_iff.mp hsect).1
        exact (List.getElem?_inj hlt hdistinct).mp (by rw [hsect, hname, heq])
    by_cases hin : row.psect = sidx
    · have hunder := hiff.mp hin
      simp only [entriesUnder] at ih ⊢
      simp [hin, hunder, hentry, ih]
    · have hunder : ¬ normalizeKey e.1 = normalizeKey name := fun heq => hin (hiff.mpr heq)
      simp only [entriesUnder] at ih ⊢
      simp [hin, hunder, ih]

/-- From its first row on are all the rows of a section. -/
theorem RowsOf.drop_eq {sidx k : ℕ} {s : SectionRow} (h : RowsOf db sidx s) (hk : s.ppairs = some k) :
    (db.pkeys.drop k).filter (fun row => row.psect = sidx) = db.keysOf sidx := by
  have hbefore := h.before
  rw [hk, Option.getD_some] at hbefore
  conv_rhs => rw [IniDb.keysOf, ← List.take_append_drop k db.pkeys, List.filter_append, hbefore]
  rfl

theorem keyRow_eq {sidx : ℕ} {s : SectionRow} (hs : db.psections[sidx]? = some s) (h : RowsOf db sidx s)
    {kidx : ℕ} (hlt : kidx < s.npairs) : keyRow db sidx kidx = (db.keysOf sidx)[kidx]? := by
  cases hpairs : s.ppairs with
  | none =>
    have hbefore := h.before
    rw [hpairs, Option.getD_none, List.take_length] at hbefore
    have hcount := h.count
    rw [IniDb.keysOf, hbefore] at hcount
    exact absurd hlt (by simp [hcount])
  | some k =>
    simp only [keyRow, hs, Option.bind_some, if_pos hlt, hpairs, Option.getD_some, h.drop_eq hpairs]

theorem filterMap_range_getElem? {α : Type*} : ∀ xs : List α,
    (List.range xs.length).filterMap (fun i => xs[i]?) = xs
  | [] => rfl
  | x :: xs => by
    rw [List.length_cons, List.range_succ_eq_map, List.filterMap_cons, List.filterMap_map]
    exact congrArg (x :: ·) (filterMap_range_getElem? xs)

theorem readSection_eq {sidx : ℕ} {s : SectionRow} (hs : db.psections[sidx]? = some s)
    (h : RowsOf db sidx s) : readSection db sidx = (db.keysOf sidx).map KeyRow.entry := by
  have hcount : inidbGetNumberOfKeys db sidx = ((db.keysOf sidx).map KeyRow.entry).length := by
    rw [inidbGetNumberOfKeys, hs, List.length_map, ← h.count]
    rfl
  rw [readSection, hcount]
  refine Eq.trans (List.filterMap_congr fun kidx hkidx => ?_) (filterMap_range_getElem? _)
  have hlt : kidx < s.npairs := by
    rw [h.count]
    simpa using hkidx
  rw [inidbGetKeyName, inidbGetKeyValue, keyRow_eq hs h hlt, List.getElem?_map]
  cases (db.keysOf sidx)[kidx]? <;> rfl

/-- Read back, a section has its entries. -/
theorem pairs_of_inv (h : DbInv db tag entered es) (name : Str) :
    ((inidbFindSection db name).map (readSection db)).getD [] = entriesUnder name es := by
  cases hfind : inidbFindSection db name with
  | none =>
    have hnone : ∀ s ∈ db.psections, strcasecmp name s.psname = false := List.findIdx?_eq_none_iff.mp hfind
    symm
    rw [entriesUnder, Option.map_none, Option.getD_none, List.map_eq_nil_iff, List.filter_eq_nil_iff]
    intro e he heq
    obtain ⟨i, hi, rfl⟩ := List.mem_iff_getElem.mp he
    have hlength := h.rows.length_eq
    obtain ⟨_, hname⟩ := h.rows.get (by omega) hi
    obtain ⟨s, hs, hsname⟩ := List.mem_map.mp (List.mem_of_getElem? hname)
    have hfalse := hnone s hs
    rw [(strcasecmp_iff _ _).mpr (hsname.trans (of_decide_eq_true heq)).symm] at hfalse
    exact Bool.false_ne_true hfalse.symm
  | some sidx =>
    obtain ⟨hlt, hname, _⟩ := List.findIdx?_eq_some_iff_getElem.mp hfind
    have hs : db.psections[sidx]? = some db.psections[sidx] := List.getElem?_eq_getElem hlt
    have hnames : db.names[sidx]? = some (normalizeKey name) := by
      rw [IniDb.names, List.getElem?_map, hs, Option.map_some]
      exact congrArg some ((strcasecmp_iff _ _).mp hname).symm
    rw [Option.map_some, Option.getD_some, readSection_eq hs (h.counts sidx _ hs)]
    exact entries_of_rows h.distinct hnames h.rows

end Legacy
end Launchpad
