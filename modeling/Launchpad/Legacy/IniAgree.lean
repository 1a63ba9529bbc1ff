/-
# Legacy texts and the new parser

`IniParser::parse_string` on a legacy text. Blank lines, comments and entries are
the same to both parsers (`parse_line`). A header that is none to the new parser
may be an entry, whose key starts with `[`; leaving these out, it reads the entries
of the text (`newWritten_filter`). So a text keeps its meaning exactly if every
entry is in the same section for both (`keepsMeaning_iff`).
-/
import Launchpad.Legacy.Headers
import Launchpad.Words

namespace Launchpad
namespace Legacy

open IniParser IniDocument

/-! ### The new parser -/

namespace Line

/-- The headers after a line, latest first. -/
def headers (hs : List Header) : Line → List Header
  | header _ name rest _ hname _ => ⟨name, rest, hname⟩ :: hs
  | _ => hs

/-- The entry a line is. -/
def entries : Line → List IniEntry
  | entry _ key _ _ value _ _ _ _ _ _ _ => [⟨key, value⟩]
  | _ => []

/-- The entry it is to the new parser. -/
def newEntries : Line → List IniEntry
  | header _ name rest _ hname _ =>
    if Header.closed ⟨name, rest, hname⟩ then [] else Header.stray ⟨name, rest, hname⟩
  | l => l.entries

end Line

/-- The entries of lines, each with the headers before it. -/
def entriesAt : List Header → List Line → List (List Header × IniEntry)
  | _, [] => []
  | hs, l :: ls => l.entries.map (hs, ·) ++ entriesAt (l.headers hs) ls

/-- The entries of lines to the new parser, each with its section. -/
def newWritten : List Header → List Line → List (Str × IniEntry)
  | _, [] => []
  | hs, l :: ls => l.newEntries.map (newTag hs, ·) ++ newWritten (l.headers hs) ls

theorem Gap.isspace {gap : Str} (h : Gap gap) : ∀ c ∈ gap, isspace c = true := by
  intro c hc
  rcases h c hc with rfl | rfl <;> rfl

theorem eol_isspace (eol : Eol) : ∀ c ∈ eol.space, isspace c = true := by
  intro c hc
  rcases eol_blanks eol c hc with rfl | rfl | rfl <;> rfl

theorem trim_gaps {before after s : Str} (hbefore : Gap before) (hafter : Gap after) (hs : trim s = s) :
    trim (before ++ (s ++ after)) = s := by
  rw [trim_space_append hbefore.isspace, trim_append_space hafter.isspace, hs]

theorem KeyField.keyText {before key left : Str} (hkey : KeyField key) (hbefore : Gap before)
    (hleft : Gap left) : KeyText (before ++ (key ++ left)) where
  noEqual := by
    have hgap : ∀ {gap : Str}, Gap gap → '=' ∉ gap := fun h hmem => by
      rcases h _ hmem with heq | heq <;> exact absurd heq (by decide)
    simp [hgap hbefore, hgap hleft, hkey.noEqual]
  noNewline := by
    have hline := hbefore.inLine.append (hkey.inLine.append hleft.inLine)
    exact fun hmem => (hline _ hmem).1 rfl
  first := by
    rw [trim_gaps hbefore hleft hkey.trimmed]
    exact hkey.first

/-- A header line is trimmed to its text. -/
theorem trim_header (h : Header) {gap space : Str} (hgap : Gap gap) (hspace : ∀ c ∈ space, isspace c = true) :
    trim (gap ++ '[' :: (h.name ++ ']' :: h.rest) ++ space) = h.line := by
  have hclose : (h.name ++ ']' :: h.rest).rdropWhile isspace = h.name ++ ']' :: h.rest.rdropWhile isspace :=
    rdropWhile_append_cons rfl _ _
  rw [trim_append_space hspace, trim_append_cons rfl, hclose, List.dropWhile_eq_nil_iff.mpr hgap.isspace]
  rfl

theorem parse_headerLine (h : Header) (doc : IniDocument) (sect : Str) :
    parseLineEntry doc sect h.line =
      if h.closed then (doc, h.inner)
      else (h.stray.foldl (fun doc e => doc.addEntry sect e.key e.value) doc, sect) := by
  have hline : ¬ (h.line = [] ∨ h.line.head?.any isComment = true) := by
    rintro (heq | hcomment)
    · exact List.cons_ne_nil _ _ heq
    · exact Bool.false_ne_true hcomment
  rw [parseLineEntry, if_neg hline]
  by_cases hclosed : h.closed
  · rw [if_pos hclosed, if_pos ⟨rfl, hclosed⟩]
    rfl
  · rw [if_neg hclosed, if_neg fun hboth => hclosed hboth.2]
    by_cases hequal : '=' ∉ h.line
    · rw [if_pos hequal, Header.stray, if_pos hequal]
      rfl
    · rw [if_neg hequal, Header.stray, if_neg hequal]
      rfl

theorem parse_line (l : Line) (eol : Eol) (hs : List Header) (doc : IniDocument) :
    parseLineEntry doc (newTag hs) (trim (l.text ++ eol.space)) =
      (l.newEntries.foldl (fun doc e => doc.addEntry (newTag hs) e.key e.value) doc,
        newTag (l.headers hs)) := by
  have hspace := eol_isspace eol
  cases l with
  | blank gap hgap =>
    rw [Line.text, trim_append_space hspace, trim_space hgap.isspace]
    rfl
  | comment gap mark rest hgap hmark hrest =>
    rw [Line.text, trim_append_space hspace, trim_space_append hgap.isspace]
    exact IniLine.parse_comment hmark rest doc (newTag hs)
  | header gap name rest hgap hname hrest =>
    have htrim := trim_header ⟨name, rest, hname⟩ hgap hspace
    rw [Line.text, htrim, parse_headerLine, Line.headers, newTag_cons, Line.newEntries]
    split_ifs <;> rfl
  | entry before key left right value after hbefore hkey hleft hright hvalue hafter =>
    have htext : before ++ (key ++ (left ++ '=' :: (right ++ (value ++ after)))) =
        before ++ (key ++ left) ++ '=' :: (right ++ (value ++ after)) := by simp
    rw [Line.text, htext, trim_append_space hspace, IniLine.parse_entry (hkey.keyText hbefore hleft),
      trim_gaps hbefore hleft hkey.trimmed, trim_gaps hright hafter hvalue.trimmed]
    rfl

/-- Reading lines adds what they are to the new parser. -/
theorem read_newWritten : ∀ (ls : List (Line × Eol)) (hs : List Header) (doc : IniDocument),
    (ls.foldl (fun s l => parseLineEntry s.1 s.2 (trim (l.1.text ++ l.2.space))) (doc, newTag hs)).1 =
      (newWritten hs (ls.map Prod.fst)).foldl (fun doc e => doc.addEntry e.1 e.2.key e.2.value) doc
  | [], _, _ => rfl
  | l :: ls, hs, doc => by
    rw [List.foldl_cons, parse_line, read_newWritten ls, List.map_cons, newWritten, List.foldl_append,
      List.foldl_map]

theorem OldText.parseString_old (t : OldText) :
    parseString t.text = .ofEntries (newWritten [] (t.lines.map Prod.fst)) := by
  have hlines : ∀ s ∈ t.lines.map (fun l => l.1.text ++ l.2.space), ∀ c ∈ s, decide (c = '\n') = false := by
    intro s hs c hc
    obtain ⟨l, _, rfl⟩ := List.mem_map.mp hs
    have hline : InLine (l.1.text ++ l.2.space) := l.1.inLine_text.append (inLine_of_blanks (eol_blanks l.2))
    exact decide_eq_false (hline c hc).1
  have hcut : t.text.splitOnP (· = '\n') = t.lines.map (fun l => l.1.text ++ l.2.space) ++ [[]] := by
    rw [← Words.splitOnP_lines (x := '\n') rfl (List.forall_mem_nil _) _ hlines, List.append_nil,
      List.flatMap_map]
    rfl
  have hread := read_newWritten t.lines [] .new
  rw [parseString, hcut, List.foldl_append, List.foldl_map, ofEntries, ← hread]
  rfl

/-! ### Both parsers -/

/-- Whether a line can have the key of an entry. -/
def plainKey (e : IniEntry) : Bool := e.key.head? ≠ some '['

theorem Header.plainKey_stray (h : Header) : ∀ e ∈ h.stray, plainKey e = false := by
  intro e he
  have hkey : h.line.takeWhile (· ≠ '=') =
      '[' :: (h.name ++ ']' :: h.rest.rdropWhile isspace).takeWhile (· ≠ '=') :=
    List.takeWhile_cons_of_pos rfl
  have htrim : trim (h.line.takeWhile (· ≠ '=')) =
      '[' :: ((h.name ++ ']' :: h.rest.rdropWhile isspace).takeWhile (· ≠ '=')).rdropWhile isspace := by
    rw [hkey]
    exact trim_append_cons rfl [] _
  by_cases hequal : '=' ∉ h.line
  · rw [stray, if_pos hequal] at he
    exact absurd he List.not_mem_nil
  · rw [stray, if_neg hequal, List.mem_singleton] at he
    rw [he, plainKey, htrim]
    rfl

theorem Line.plainKey_entries (l : Line) : ∀ e ∈ l.entries, plainKey e = true := by
  intro e he
  cases l with
  | entry before key left right value after hbefore hkey hleft hright hvalue hafter =>
    rw [entries, List.mem_singleton] at he
    rw [he]
    apply decide_eq_true
    intro hopen
    have hfirst := hkey.first
    rw [hopen] at hfirst
    exact absurd hfirst (by decide)
  | _ => exact absurd he List.not_mem_nil

/-- Of what the new parser reads on a line, the entry of the line has a plain key. -/
theorem Line.newEntries_filter (l : Line) : l.newEntries.filter plainKey = l.entries := by
  have hself : l.entries.filter plainKey = l.entries := List.filter_eq_self.mpr l.plainKey_entries
  cases l with
  | header gap name rest hgap hname hrest =>
    refine List.filter_eq_nil_iff.mpr fun e he => ?_
    rw [newEntries] at he
    split_ifs at he with hclosed
    · exact absurd he List.not_mem_nil
    · simp [Header.plainKey_stray _ e he]
  | _ => exact hself

theorem newWritten_filter : ∀ (ls : List Line) (hs : List Header),
    (newWritten hs ls).filter (fun e => plainKey e.2) = tagged newTag (entriesAt hs ls)
  | [], _ => rfl
  | l :: ls, hs => by
    have hline : (l.newEntries.map (newTag hs, ·)).filter (fun e => plainKey e.2) =
        tagged newTag (l.entries.map (hs, ·)) := by
      rw [List.filter_map, tagged, List.map_map, ← l.newEntries_filter]
      rfl
    rw [newWritten, List.filter_append, hline, newWritten_filter ls, entriesAt, tagged, tagged, tagged,
      List.map_append]

theorem legacyWritten_eq : ∀ (ls : List Line) (hs : List Header),
    legacyWritten (legacyTag hs) ls = tagged legacyTag (entriesAt hs ls)
  | [], _ => rfl
  | l :: ls, hs => by
    have ih := legacyWritten_eq ls (l.headers hs)
    cases l with
    | entry before key left right value after hbefore hkey hleft hright hvalue hafter =>
      exact congrArg ((legacyTag hs, ⟨key, value⟩) :: ·) ih
    | _ => exact ih

theorem plainKey_entriesAt : ∀ (ls : List Line) (hs : List Header),
    ∀ e ∈ entriesAt hs ls, plainKey e.2 = true
  | [], _, _, he => absurd he List.not_mem_nil
  | l :: ls, hs, e, he => by
    rcases List.mem_append.mp he with he | he
    · obtain ⟨entry, hentry, rfl⟩ := List.mem_map.mp he
      exact l.plainKey_entries entry hentry
    · exact plainKey_entriesAt ls (l.headers hs) e he

/-- The headers after lines. -/
def headersAfter (hs : List Header) (ls : List Line) : List Header := ls.foldl Line.headers hs

theorem suffix_headersAfter : ∀ (ls : List Line) (hs : List Header), hs <:+ headersAfter hs ls
  | [], _ => List.suffix_rfl
  | l :: ls, hs => by
    have hline : hs <:+ l.headers hs := by
      cases l with
      | header gap name rest hgap hname hrest => exact List.suffix_cons _ _
      | _ => exact List.suffix_rfl
    exact hline.trans (suffix_headersAfter ls (l.headers hs))

/-- The headers before an entry are the first of all. -/
theorem entriesAt_suffix : ∀ (ls : List Line) (hs : List Header),
    ∀ e ∈ entriesAt hs ls, e.1 <:+ headersAfter hs ls
  | [], _, _, he => absurd he List.not_mem_nil
  | l :: ls, hs, e, he => by
    rcases List.mem_append.mp he with he | he
    · obtain ⟨_, _, rfl⟩ := List.mem_map.mp he
      exact suffix_headersAfter (l :: ls) hs
    · exact entriesAt_suffix ls (l.headers hs) e he

theorem names_headersAfter : ∀ (ls : List Line) (hs : List Header),
    (headersAfter hs ls).map (fun h => normalizeKey h.name) =
      ((ls.filterMap Line.headerName).map normalizeKey).reverse ++ hs.map fun h => normalizeKey h.name
  | [], _ => rfl
  | l :: ls, hs => by
    have ih := names_headersAfter ls (l.headers hs)
    cases l with
    | header gap name rest hgap hname hrest =>
      refine ih.trans ?_
      simp [Line.headers, Line.headerName]
    | _ => exact ih

/-! ### Keeping the meaning -/

/-- A text keeps its meaning: every section has all the pairs it had, in order. -/
def KeepsMeaning (text : Str) : Prop :=
  ∀ name, (pairsOf text name).Sublist ((parseString text).getSectionEntries name)

namespace OldText

variable (t : OldText)

/-- The entries of a text, each with the headers before it. -/
def entries : List (List Header × IniEntry) := entriesAt [] (t.lines.map Prod.fst)

theorem distinct_headers : Distinct (headersAfter [] (t.lines.map Prod.fst)) := by
  have hnames := names_headersAfter (t.lines.map Prod.fst) []
  rw [List.filterMap_map, List.map_nil, List.append_nil] at hnames
  rw [Distinct, hnames]
  exact List.nodup_reverse.mpr t.distinct

theorem entries_suffix : ∀ e ∈ t.entries, e.1 <:+ headersAfter [] (t.lines.map Prod.fst) :=
  entriesAt_suffix _ _

/-- The legacy pairs of a section, with the sections of the legacy parser. -/
theorem pairsOf_eq (name : Str) : pairsOf t.text name = entriesUnder name (tagged legacyTag t.entries) := by
  rw [pairsOf_text, legacyEntries, entries, ← legacyWritten_eq]
  rfl

/-- Those of them the new parser has there, with its own. -/
theorem plainEntries_eq (name : Str) :
    ((parseString t.text).getSectionEntries name).filter plainKey =
      entriesUnder name (tagged newTag t.entries) := by
  rw [parseString_old, getSectionEntries_ofEntries, entries, ← newWritten_filter, entriesUnder,
    entriesUnder, List.filter_map, List.filter_filter, List.filter_filter]
  congr 2
  funext e
  exact Bool.and_comm _ _

theorem keepsMeaning_iff_sublist : KeepsMeaning t.text ↔ ∀ name,
    (entriesUnder name (tagged legacyTag t.entries)).Sublist
      (entriesUnder name (tagged newTag t.entries)) := by
  apply forall_congr'
  intro name
  rw [pairsOf_eq, ← plainEntries_eq]
  constructor
  · intro hsublist
    have hplain : (entriesUnder name (tagged legacyTag t.entries)).filter plainKey =
        entriesUnder name (tagged legacyTag t.entries) := by
      apply List.filter_eq_self.mpr
      intro e he
      rw [entriesUnder_tagged] at he
      obtain ⟨x, hx, rfl⟩ := List.mem_map.mp he
      exact plainKey_entriesAt _ _ x (List.mem_filter.mp hx).1
    rw [← hplain]
    exact hsublist.filter plainKey
  · exact fun hsublist => hsublist.trans List.filter_sublist

/-- **Legacy texts in the new parser.** A text keeps its meaning exactly if the
headers before every entry agree: the latest that is one to either parser is bare
and has a name, or it names the default section and none before it is closed. -/
theorem keepsMeaning_iff : KeepsMeaning t.text ↔ ∀ e ∈ t.entries, Agree e.1 := by
  have hagree : ∀ e ∈ t.entries,
      (Agree e.1 ↔ normalizeKey (legacyTag e.1) = normalizeKey (newTag e.1)) := fun e he =>
    agree_iff (t.distinct_headers.suffix (t.entries_suffix e he))
  rw [keepsMeaning_iff_sublist]
  constructor
  · intro hsublist e he
    exact (hagree e he).mpr (agree_of_sublist t.distinct_headers t.entries_suffix hsublist e he)
  · intro hall name
    have hsame : entriesUnder name (tagged legacyTag t.entries) =
        entriesUnder name (tagged newTag t.entries) := by
      rw [entriesUnder_tagged, entriesUnder_tagged]
      congr 1
      apply List.filter_congr
      intro e he
      rw [(hagree e he).mp (hall e he)]
    rw [hsame]

/-- A remark behind a header, and the section is lost: what was written is a hotkey
to the legacy parser, and in no section of that name to the new one. -/
theorem not_keepsMeaning_remark : ∃ t : OldText, t.text = "[Actions] ; my keys\nR = !sync\n".toList ∧
    ¬ KeepsMeaning t.text := by
  refine ⟨⟨[(.header [] "Actions".toList " ; my keys".toList (by decide +kernel) (by decide +kernel)
      (by decide +kernel), .lf),
    (.entry [] "R".toList " ".toList " ".toList "!sync".toList [] (by decide +kernel)
      (by decide +kernel) (by decide +kernel) (by decide +kernel) (by decide +kernel)
      (by decide +kernel), .lf)], by decide +kernel⟩, rfl, fun hkeeps => ?_⟩
  have hsublist := hkeeps "Actions".toList
  revert hsublist
  decide +kernel

end OldText

end Legacy
end Launchpad
