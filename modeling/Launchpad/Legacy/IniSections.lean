/-
# Repeated sections in legacy texts

A header that is written again is to go on with its section. The scanner looks for
it in the first row of the section table only: the first section is found again,
and every other name makes a new row each time (`names_foldl`). The lookups
stop at the first row of a name, so what is written under the later ones is lost.
The entries of all sections are read back, and the names of the table differ,
exactly when no header but the first section's is repeated and the file has the
room its tables need (`sections_merge_iff`).
-/
import Launchpad.Legacy.IniRows

namespace Launchpad
namespace Legacy

open IniDocument
open IniMemory (Item itemsOf enterItem)

/-! ### What is written -/

/-- The value the table gets for the text of one. -/
def valueOf (p : Str) : Str :=
  if parseKeyValue p > 0 then p.take (parseKeyValue p) else "<empty>".toList

/-- The entries of a text, each with the header it is under. -/
def writtenFrom : Str → List Item → List (Str × IniEntry)
  | _, [] => []
  | _, .header name :: items => writtenFrom name items
  | tag, .key name value :: items => (tag, ⟨name, valueOf value⟩) :: writtenFrom tag items

def written (items : List Item) : List (Str × IniEntry) := writtenFrom "Default".toList items

def headerName : Item → Option Str
  | .header name => some name
  | .key _ _ => none

/-- The first section is the default one when a key comes first. -/
def firstName : List Item → Str
  | .header name :: _ => name
  | _ => "Default".toList

/-- The headers with another name than the first section, in lower case. -/
def laterHeaders (first : Str) (items : List Item) : List Str :=
  ((items.filterMap headerName).map normalizeKey).filter (· ≠ normalizeKey first)

/-- No header is repeated, but for that of the first section. -/
def NoneRepeats (items : List Item) : Prop := (laterHeaders (firstName items) items).Nodup

instance (items : List Item) : Decidable (NoneRepeats items) :=
  inferInstanceAs (Decidable (List.Nodup _))

/-- Every entry under a header of a name is read back, in order, from the one section
found for it. -/
structure SectionsMerge (text : Str) (db : IniDb) : Prop where
  inBounds : (IniMemory.parseIniFile text).isSome = true
  merged : ∀ name, ((inidbFindSection db name).map (readSection db)).getD [] =
    entriesUnder name (written (itemsOf text))
  distinct : db.names.Nodup

/-! ### The names of the table -/

variable {db : IniDb} {first : Str}

theorem names_enterSection (name : Str) : (db.enterSection name).names =
    if db.names.head? = some (normalizeKey name) then db.names else db.names ++ [normalizeKey name] := by
  have hhead : db.names.head? = some (normalizeKey name) ↔
      db.psections.head?.any (fun s => strcasecmp s.psname name) = true := by
    cases hs : db.psections with
    | nil => simp [IniDb.names, hs]
    | cons s rest => simp [IniDb.names, hs, strcasecmp_iff]
  unfold IniDb.enterSection
  by_cases hfound : db.psections.head?.any (fun s => strcasecmp s.psname name) = true
  · rw [if_pos hfound, if_pos (hhead.mpr hfound)]
    rfl
  · rw [if_neg hfound, if_neg (mt hhead.mp hfound)]
    simp [IniDb.names]

theorem laterHeaders_header (first name : Str) (items : List Item) :
    laterHeaders first (.header name :: items) =
      if normalizeKey name = normalizeKey first then laterHeaders first items
      else normalizeKey name :: laterHeaders first items := by
  have hname : headerName (.header name) = some name := rfl
  unfold laterHeaders
  rw [List.filterMap_cons_some hname, List.map_cons, List.filter_cons]
  by_cases hsame : normalizeKey name = normalizeKey first
  · rw [if_pos hsame, if_neg (by simp [hsame])]
  · rw [if_neg hsame, if_pos (by simp [hsame])]

/-- After the first section, a row is added for every other header. -/
theorem names_foldl (items : List Item) : ∀ db : IniDb,
    db.names.head? = some (normalizeKey first) →
    (items.foldl enterItem db).names = db.names ++ laterHeaders first items := by
  induction items with
  | nil => exact fun db _ => (List.append_nil _).symm
  | cons item items ih =>
    intro db hfirst
    have hsome : db.psections ≠ [] := by
      intro hnil
      simp [IniDb.names, hnil] at hfirst
    rw [List.foldl_cons]
    cases item with
    | key name value =>
      have hsame : (enterItem db (.key name value)).names = db.names := names_addKey hsome name _
      rw [ih _ (by rw [hsame]; exact hfirst), hsame]
      rfl
    | header name =>
      have hname : (enterItem db (.header name)).names = if normalizeKey name = normalizeKey first
          then db.names else db.names ++ [normalizeKey name] := by
        rw [enterItem, names_enterSection, hfirst]
        simp only [Option.some.injEq, eq_comm]
      by_cases hsame : normalizeKey name = normalizeKey first
      · rw [if_pos hsame] at hname
        rw [ih _ (by rw [hname]; exact hfirst), hname, laterHeaders_header, if_pos hsame]
      · rw [if_neg hsame] at hname
        have hhead : (db.names ++ [normalizeKey name]).head? = some (normalizeKey first) := by
          rw [List.head?_append, hfirst]
          rfl
        rw [ih _ (by rw [hname]; exact hhead), hname, List.append_assoc, laterHeaders_header,
          if_neg hsame]
        rfl

theorem names_items {items : List Item} (h : items ≠ []) : (items.foldl enterItem {}).names =
    normalizeKey (firstName items) :: laterHeaders (firstName items) items := by
  cases items with
  | nil => exact absurd rfl h
  | cons item items =>
    cases item with
    | header name =>
      rw [List.foldl_cons, names_foldl items _ (show _ = some (normalizeKey name) from rfl),
        firstName, laterHeaders_header, if_pos rfl]
      rfl
    | key name value =>
      rw [List.foldl_cons, names_foldl items _ (show _ = some (normalizeKey "Default".toList) from rfl)]
      rfl

theorem distinct_iff (items : List Item) :
    (items.foldl enterItem {}).names.Nodup ↔ NoneRepeats items := by
  by_cases hnil : items = []
  · rw [hnil]
    exact iff_of_true List.nodup_nil List.nodup_nil
  · rw [names_items hnil, List.nodup_cons]
    refine and_iff_right fun hmem => ?_
    exact of_decide_eq_true (List.mem_filter.mp hmem).2 rfl

/-! ### Reading back -/

/-- The tables stand for entries; nothing is said of sections still to come. -/
def Stands (db : IniDb) (tag : Str) (es : List (Str × IniEntry)) : Prop :=
  DbInv db tag (db.names.drop 1) es

theorem DbInv.stands {tag : Str} {entered : List Str} {es : List (Str × IniEntry)}
    (h : DbInv db tag entered es) : Stands db tag es :=
  ⟨h.distinct, fun _ hname => hname, h.current, h.rows, h.counts⟩

theorem names_stay (items : List Item) : ∀ db : IniDb,
    db.names <+: (items.foldl enterItem db).names := by
  induction items with
  | nil => exact fun _ => List.prefix_rfl
  | cons item items ih =>
    intro db
    refine List.IsPrefix.trans ?_ (ih (enterItem db item))
    cases item with
    | header name =>
      rw [enterItem, names_enterSection]
      split_ifs
      · exact List.prefix_rfl
      · exact List.prefix_append _ _
    | key name value =>
      by_cases hsome : db.psections = []
      · have hnil : db.names = [] := by rw [IniDb.names, hsome, List.map_nil]
        rw [hnil]
        exact List.nil_prefix
      · have hsame : (enterItem db (.key name value)).names = db.names := names_addKey hsome name _
        exact hsame.symm ▸ List.prefix_rfl

/-- A header that leaves the names different: that of the first section, or a new one. -/
theorem notMem_of_enterSection {name : Str} (h : (db.enterSection name).names.Nodup) :
    normalizeKey name ∉ db.names.drop 1 := by
  rw [names_enterSection] at h
  split_ifs at h with hfirst
  · obtain ⟨rest, hnames⟩ := List.head?_eq_some_iff.mp hfirst
    rw [hnames] at h ⊢
    exact (List.nodup_cons.mp h).1
  · intro hmem
    have hdisjoint := List.disjoint_of_nodup_append h
    exact hdisjoint (List.mem_of_mem_drop hmem) List.mem_cons_self

/-- With different names, the tables stand for all that is written. -/
theorem stands_foldl (items : List Item) : ∀ {db : IniDb} {tag : Str} {es : List (Str × IniEntry)},
    Stands db tag es → (items.foldl enterItem db).names.Nodup →
    ∃ tag', Stands (items.foldl enterItem db) tag' (es ++ writtenFrom tag items) := by
  induction items with
  | nil =>
    intro db tag es h _
    exact ⟨tag, by rwa [writtenFrom, List.append_nil]⟩
  | cons item items ih =>
    intro db tag es h hdistinct
    rw [List.foldl_cons] at hdistinct ⊢
    cases item with
    | header name =>
      have hnew : (db.enterSection name).names.Nodup :=
        hdistinct.sublist (names_stay items _).sublist
      exact ih (h.enterSection (notMem_of_enterSection hnew)).stands hdistinct
    | key name value =>
      obtain ⟨tag', hstands⟩ := ih (h.addKey name (valueOf value)).stands hdistinct
      rw [List.append_assoc] at hstands
      exact ⟨tag', hstands⟩

/-- **Repeated sections.** Every entry is read back from the one section found for
its header, and the names of the sections differ, if and only if the file has room
for its tables and no header but that of the first section is repeated. -/
theorem sections_merge_iff {text : Str} (hopen : inidbOpen text = some db) :
    SectionsMerge text db ↔ IniMemory.Roomy text ∧ NoneRepeats (itemsOf text) := by
  have hdb : db = (itemsOf text).foldl enterItem {} :=
    (inidbOpen_eq_some hopen).1.trans (parseIniFile_eq text)
  have hroom := (IniMemory.parseIniFile_takes text).isSome_iff
  have hnames : db.names.Nodup ↔ NoneRepeats (itemsOf text) := hdb ▸ distinct_iff (itemsOf text)
  constructor
  · exact fun h => ⟨hroom.mp h.inBounds, hnames.mp h.distinct⟩
  · rintro ⟨hroomy, hnone⟩
    refine ⟨hroom.mpr hroomy, fun name => ?_, hnames.mpr hnone⟩
    have hdistinct : ((itemsOf text).foldl enterItem {}).names.Nodup := hdb ▸ hnames.mpr hnone
    obtain ⟨tag, hstands⟩ := stands_foldl (itemsOf text) dbInv_init.stands hdistinct
    rw [← hdb, List.nil_append] at hstands
    exact pairs_of_inv hstands name

/-- The first section is repeated. -/
def repeatedFirst : Str := "[A]\na=1\n[B]\nb=2\n[a]\nc=3\n".toList

theorem sections_merge_first : SectionsMerge repeatedFirst (parseIniFile repeatedFirst) := by
  have hopen : inidbOpen repeatedFirst = some (parseIniFile repeatedFirst) := by decide +kernel
  exact (sections_merge_iff hopen).mpr
    ⟨(IniMemory.parseIniFile_takes _).isSome_iff.mp (by decide +kernel), by decide +kernel⟩

/-- The second section is not: `c` is under a row that is never found. -/
theorem not_sections_merge_second : ¬ ∀ (text : Str) (db : IniDb),
    inidbOpen text = some db → (IniMemory.parseIniFile text).isSome = true → SectionsMerge text db := by
  intro hall
  have hmerge := hall "[A]\na=1\n[B]\nb=2\n[b]\nc=3\n".toList _ rfl (by decide +kernel)
  have hread := hmerge.merged "B".toList
  revert hread
  decide +kernel

end Legacy
end Launchpad
