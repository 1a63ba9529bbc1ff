/-
# Texts of INI files

An INI text is lines of four shapes, whose parts may have whitespace around
them, ended by LF or CRLF, the last perhaps by neither (`IniText`). The parser
cuts it into its lines (`splitOnP_text`) and takes each for what it was written as
(`parseLineEntry_text`), so the document it makes is that of the entries written,
each under the header before it (`parseString_text`).
-/
import Launchpad.Config.IniParser
import Launchpad.Words

namespace Launchpad

open IniParser

/-! ### Documents of entries -/

namespace IniDocument

/-- The document of entries, each with its section, in order. -/
def ofEntries (es : List (Str × IniEntry)) : IniDocument :=
  es.foldl (fun doc e => doc.addEntry e.1 e.2.key e.2.value) new

/-- The names, each once, as it is first written. -/
def firstNames : List Str → List Str
  | [] => []
  | sect :: sects => sect :: (firstNames sects).filter fun s => normalizeKey s ≠ normalizeKey sect

/-- The entries of a section, whatever the case of its name. -/
def entriesUnder (sect : Str) (es : List (Str × IniEntry)) : List IniEntry :=
  (es.filter fun e => normalizeKey e.1 = normalizeKey sect).map Prod.snd

theorem getSectionEntries_addEntry (doc : IniDocument) (sect key value s : Str) :
    (doc.addEntry sect key value).getSectionEntries s =
      doc.getSectionEntries s ++
        if normalizeKey sect = normalizeKey s then [⟨key, value⟩] else [] := by
  unfold getSectionEntries addEntry
  by_cases h : normalizeKey sect = normalizeKey s
  · rw [if_pos h, h, AList.lookup_insert]
    rfl
  · rw [if_neg h, AList.lookup_insert_ne (Ne.symm h), List.append_nil]

theorem mem_sections_addEntry (doc : IniDocument) (sect key value s : Str) :
    s ∈ (doc.addEntry sect key value).sections ↔ s = normalizeKey sect ∨ s ∈ doc.sections :=
  AList.mem_insert _

theorem ofEntries_concat (es : List (Str × IniEntry)) (e : Str × IniEntry) :
    ofEntries (es ++ [e]) = (ofEntries es).addEntry e.1 e.2.key e.2.value := by
  rw [ofEntries, List.foldl_append]
  rfl

/-- A section has exactly the entries written under it. -/
theorem getSectionEntries_ofEntries (es : List (Str × IniEntry)) (sect : Str) :
    (ofEntries es).getSectionEntries sect = entriesUnder sect es := by
  induction es using List.reverseRecOn with
  | nil => rfl
  | append_singleton es e ih =>
    rw [ofEntries_concat, getSectionEntries_addEntry, ih, entriesUnder, entriesUnder,
      List.filter_append, List.map_append]
    congr 1
    by_cases h : normalizeKey e.1 = normalizeKey sect
    · simp [h]
    · simp [h]

theorem getString_eq (doc : IniDocument) (sect key : Str) : doc.getString sect key =
    ((doc.getSectionEntries sect).find? fun e => normalizeKey e.key = normalizeKey key).map
      IniEntry.value := by
  unfold getString getSectionEntries
  cases doc.sections.lookup (normalizeKey sect) <;> rfl

theorem mem_sections_ofEntries (es : List (Str × IniEntry)) (s : Str) :
    s ∈ (ofEntries es).sections ↔ ∃ e ∈ es, normalizeKey e.1 = s := by
  induction es using List.reverseRecOn with
  | nil => simp [ofEntries, new]
  | append_singleton es e ih =>
    rw [ofEntries_concat, mem_sections_addEntry, ih]
    constructor
    · rintro (rfl | ⟨e', he', rfl⟩)
      · exact ⟨e, by simp, rfl⟩
      · exact ⟨e', by simp [he'], rfl⟩
    · rintro ⟨e', he', rfl⟩
      rcases List.mem_append.mp he' with hold | hnew
      · exact .inr ⟨e', hold, rfl⟩
      · rw [List.mem_singleton.mp hnew]
        exact .inl rfl

theorem firstNames_concat (sect : Str) : ∀ sects : List Str, firstNames (sects ++ [sect]) =
    if ∃ s ∈ sects, normalizeKey s = normalizeKey sect then firstNames sects
    else firstNames sects ++ [sect]
  | [] => by simp [firstNames]
  | s :: sects => by
    have ih := firstNames_concat sect sects
    rw [List.cons_append, firstNames, ih, firstNames]
    by_cases hs : normalizeKey s = normalizeKey sect
    · have hsome : ∃ t ∈ s :: sects, normalizeKey t = normalizeKey sect := ⟨s, List.mem_cons_self, hs⟩
      rw [if_pos hsome]
      split_ifs
      · rfl
      · simp [List.filter_append, hs]
    · by_cases hlater : ∃ t ∈ sects, normalizeKey t = normalizeKey sect
      · obtain ⟨t, ht, heq⟩ := hlater
        rw [if_pos ⟨t, ht, heq⟩, if_pos ⟨t, List.mem_cons_of_mem s ht, heq⟩]
      · have hnone : ¬ ∃ t ∈ s :: sects, normalizeKey t = normalizeKey sect := by
          rintro ⟨t, ht, heq⟩
          rcases List.mem_cons.mp ht with rfl | ht
          · exact hs heq
          · exact hlater ⟨t, ht, heq⟩
        rw [if_neg hlater, if_neg hnone, List.filter_append]
        simp [Ne.symm hs]

/-- The sections are listed in the order of their first entries. -/
theorem getSectionNames_ofEntries (es : List (Str × IniEntry)) :
    (ofEntries es).getSectionNames = firstNames (es.map Prod.fst) := by
  induction es using List.reverseRecOn with
  | nil => rfl
  | append_singleton es e ih =>
    rw [ofEntries_concat, List.map_append]
    show (if normalizeKey e.1 ∈ (ofEntries es).sections then (ofEntries es).getSectionNames
      else (ofEntries es).getSectionNames ++ [e.1]) = firstNames (es.map Prod.fst ++ [e.1])
    rw [firstNames_concat, ih]
    apply if_congr _ rfl rfl
    rw [mem_sections_ofEntries]
    simp

end IniDocument

/-! ### Lines -/

/-- Whitespace within a line. -/
def Blank (s : Str) : Prop := ∀ c ∈ s, isspace c = true ∧ c ≠ '\n'

instance (s : Str) : Decidable (Blank s) := List.decidableBAll _ _

/-- A key, with the whitespace around it: it has no `=`, and does not start like
a header or a comment. -/
structure KeyText (key : Str) : Prop where
  noEqual : '=' ∉ key
  noNewline : '\n' ∉ key
  first : ((trim key).head?.any fun c => c ≠ '[' ∧ isComment c = false) = true

theorem KeyText.exists_first {key : Str} (h : KeyText key) :
    ∃ c rest, key.dropWhile isspace = c :: rest ∧ c ≠ '[' ∧ isComment c = false := by
  have hfirst := h.first
  obtain ⟨rest, hrest⟩ : trim key <+: key.dropWhile isspace := List.rdropWhile_prefix isspace _
  cases htrim : trim key with
  | nil => simp [htrim] at hfirst
  | cons c tail =>
    rw [htrim] at hfirst hrest
    have hc : c ≠ '[' ∧ isComment c = false := of_decide_eq_true hfirst
    exact ⟨c, tail ++ rest, hrest.symm, hc.1, hc.2⟩

/-- A line. The name of a header, the key and the value have the whitespace around
them. -/
inductive IniLine
  | blank (space : Str) (hspace : Blank space)
  | comment (space : Str) (mark : Char) (rest : Str) (hspace : Blank space)
    (hmark : isComment mark = true) (hrest : '\n' ∉ rest)
  | header (before name after : Str) (hbefore : Blank before) (hname : '\n' ∉ name)
    (hafter : Blank after)
  | entry (key value : Str) (hkey : KeyText key) (hvalue : '\n' ∉ value)

namespace IniLine

def text : IniLine → Str
  | blank space _ => space
  | comment space mark rest _ _ _ => space ++ mark :: rest
  | header before name after _ _ _ => before ++ '[' :: (name ++ ']' :: after)
  | entry key value _ _ => key ++ '=' :: value

theorem newline_notMem_of_blank {s : Str} (h : Blank s) : '\n' ∉ s := fun hmem => (h '\n' hmem).2 rfl

theorem newline_notMem_text (l : IniLine) : '\n' ∉ l.text := by
  cases l with
  | blank space hspace => exact newline_notMem_of_blank hspace
  | comment space mark rest hspace hmark hrest =>
    have hne : '\n' ≠ mark := by
      rintro rfl
      exact absurd hmark (by decide)
    simp [text, newline_notMem_of_blank hspace, hne, hrest]
  | header before name after hbefore hname hafter =>
    simp [text, newline_notMem_of_blank hbefore, newline_notMem_of_blank hafter, hname]
  | entry key value hkey hvalue => simp [text, hkey.noNewline, hvalue]

/-- What a line stands for: the document and the section after it. -/
def read (doc : IniDocument) (sect : Str) : IniLine → IniDocument × Str
  | blank .. => (doc, sect)
  | comment .. => (doc, sect)
  | header _ name _ _ _ _ => (doc, trim name)
  | entry key value _ _ => (doc.addEntry sect (trim key) (trim value), sect)

theorem isspace_of_blank {s : Str} (h : Blank s) : ∀ c ∈ s, isspace c = true := fun c hc => (h c hc).1

theorem not_isspace_of_isComment {c : Char} (h : isComment c = true) : isspace c = false := by
  rcases (of_decide_eq_true h : c = ';' ∨ c = '#') with rfl | rfl <;> rfl

theorem parse_comment {mark : Char} (hmark : isComment mark = true) (rest : Str) (doc : IniDocument)
    (sect : Str) : parseLineEntry doc sect (trim (mark :: rest)) = (doc, sect) := by
  have htrim : trim (mark :: rest) = mark :: rest.rdropWhile isspace :=
    trim_append_cons (not_isspace_of_isComment hmark) [] rest
  rw [htrim, parseLineEntry, if_pos (.inr hmark)]

theorem parse_header (name : Str) (doc : IniDocument) (sect : Str) :
    parseLineEntry doc sect (trim ('[' :: (name ++ [']']))) = (doc, trim name) := by
  have hclose : (name ++ [']']).rdropWhile isspace = name ++ [']'] := rdropWhile_append_cons rfl name []
  have htrim : trim ('[' :: (name ++ [']'])) = '[' :: (name ++ [']']) := by
    calc trim ('[' :: (name ++ [']'])) = '[' :: (name ++ [']']).rdropWhile isspace :=
          trim_append_cons rfl [] (name ++ [']'])
      _ = '[' :: (name ++ [']']) := by rw [hclose]
  have hline : ¬ ('[' :: (name ++ [']']) = [] ∨ ('[' :: (name ++ [']'])).head?.any isComment) := by
    rintro (h | h)
    · exact List.cons_ne_nil _ _ h
    · exact Bool.false_ne_true h
  have hlast : ('[' :: (name ++ [']'])).getLast? = some ']' := by
    rw [← List.cons_append, List.getLast?_append]
    rfl
  rw [htrim, parseLineEntry, if_neg hline, if_pos ⟨rfl, hlast⟩]
  simp

/-- An entry is cut at its first `=`. -/
theorem parse_entry {key : Str} (hkey : KeyText key) (value : Str) (doc : IniDocument) (sect : Str) :
    parseLineEntry doc sect (trim (key ++ '=' :: value)) =
      (doc.addEntry sect (trim key) (trim value), sect) := by
  obtain ⟨c, rest, hcons, hopen, hcomment⟩ := hkey.exists_first
  have hne : ∀ x ∈ key.dropWhile isspace, decide (x ≠ '=') = true := by
    intro x hx
    apply decide_eq_true
    rintro rfl
    exact hkey.noEqual ((List.dropWhile_suffix isspace).subset hx)
  have hline : ¬ (key.dropWhile isspace ++ '=' :: value.rdropWhile isspace = [] ∨
      (key.dropWhile isspace ++ '=' :: value.rdropWhile isspace).head?.any isComment) := by
    rw [hcons, List.cons_append]
    rintro (h | h)
    · exact List.cons_ne_nil _ _ h
    · exact Bool.false_ne_true (hcomment.symm.trans h)
  have hheader : ¬ ((key.dropWhile isspace ++ '=' :: value.rdropWhile isspace).head? = some '[' ∧
      (key.dropWhile isspace ++ '=' :: value.rdropWhile isspace).getLast? = some ']') := by
    rw [hcons]
    rintro ⟨h, _⟩
    exact hopen (Option.some.inj h)
  have hequal : ¬ '=' ∉ key.dropWhile isspace ++ '=' :: value.rdropWhile isspace := by simp
  rw [trim_append_cons rfl, parseLineEntry, if_neg hline, if_neg hheader, if_neg hequal,
    List.takeWhile_append_of_pos hne, List.dropWhile_append_of_pos hne]
  simp [trim_dropWhile, trim_rdropWhile]

/-- A line is read as what it stands for, whatever whitespace follows it. -/
theorem parseLineEntry_text (l : IniLine) {space : Str} (hspace : ∀ c ∈ space, isspace c = true)
    (doc : IniDocument) (sect : Str) :
    parseLineEntry doc sect (trim (l.text ++ space)) = l.read doc sect := by
  rw [trim_append_space hspace]
  cases l with
  | blank blank hblank =>
    rw [text, trim_space (isspace_of_blank hblank)]
    rfl
  | comment before mark rest hbefore hmark hrest =>
    rw [text, trim_space_append (isspace_of_blank hbefore)]
    exact parse_comment hmark rest doc sect
  | header before name after hbefore hname hafter =>
    have htext : before ++ '[' :: (name ++ ']' :: after) = before ++ ('[' :: (name ++ [']']) ++ after) := by
      simp
    rw [text, htext, trim_space_append (isspace_of_blank hbefore),
      trim_append_space (isspace_of_blank hafter)]
    exact parse_header name doc sect
  | entry key value hkey hvalue => exact parse_entry hkey value doc sect

end IniLine

/-! ### Texts -/

inductive Eol
  | lf
  | crlf
  deriving DecidableEq

/-- What precedes the newline. -/
def Eol.space : Eol → Str
  | .lf => []
  | .crlf => ['\r']

/-- The lines of a text and their ends; the last may have none. -/
structure IniText where
  lines : List (IniLine × Eol)
  last : Option IniLine := none

/-- The entries written by lines, each with its section. -/
def writtenBy : Str → List IniLine → List (Str × IniEntry)
  | _, [] => []
  | _, .header _ name _ _ _ _ :: ls => writtenBy (trim name) ls
  | sect, .entry key value _ _ :: ls => (sect, ⟨trim key, trim value⟩) :: writtenBy sect ls
  | sect, _ :: ls => writtenBy sect ls

/-- Reading lines adds the entries they write. -/
theorem read_lines : ∀ (ls : List IniLine) (doc : IniDocument) (sect : Str),
    (ls.foldl (fun s l => l.read s.1 s.2) (doc, sect)).1 =
      (writtenBy sect ls).foldl (fun doc e => doc.addEntry e.1 e.2.key e.2.value) doc
  | [], _, _ => rfl
  | .blank _ _ :: ls, doc, sect => read_lines ls doc sect
  | .comment _ _ _ _ _ _ :: ls, doc, sect => read_lines ls doc sect
  | .header _ name _ _ _ _ :: ls, doc, _ => read_lines ls doc (trim name)
  | .entry key value _ _ :: ls, doc, sect =>
    read_lines ls (doc.addEntry sect (trim key) (trim value)) sect

namespace IniText

variable (t : IniText)

def text : Str :=
  (t.lines.flatMap fun l => l.1.text ++ l.2.space ++ ['\n']) ++ (t.last.map IniLine.text).getD []

/-- The entries written, from the section `default` on. -/
def written : List (Str × IniEntry) :=
  writtenBy "default".toList (t.lines.map Prod.fst ++ t.last.toList)

/-- The text is cut into its lines and what follows the last newline. -/
theorem splitOnP_text : t.text.splitOnP (· = '\n') =
    t.lines.map (fun l => l.1.text ++ l.2.space) ++ [(t.last.map IniLine.text).getD []] := by
  have hlast : ∀ c ∈ (t.last.map IniLine.text).getD [], decide (c = '\n') = false := by
    cases t.last with
    | none => exact nofun
    | some l =>
      rintro c hc
      exact decide_eq_false fun h => l.newline_notMem_text (h ▸ hc)
  have hlines : ∀ s ∈ t.lines.map (fun l => l.1.text ++ l.2.space), ∀ c ∈ s,
      decide (c = '\n') = false := by
    intro s hs c hc
    obtain ⟨⟨l, eol⟩, _, rfl⟩ := List.mem_map.mp hs
    apply decide_eq_false
    rintro rfl
    rcases List.mem_append.mp hc with hc | hc
    · exact l.newline_notMem_text hc
    · cases eol <;> simp [Eol.space] at hc
  rw [← Words.splitOnP_lines (x := '\n') rfl hlast _ hlines, List.flatMap_map]
  rfl

/-- The parser reads the lines written. -/
theorem parseString_eq : parseString t.text = .ofEntries t.written := by
  have hread : ∀ (ls : List (IniLine × Eol)) (s : IniDocument × Str),
      (ls.map fun l => l.1.text ++ l.2.space).foldl
          (fun s line => parseLineEntry s.1 s.2 (trim line)) s =
        (ls.map Prod.fst).foldl (fun s l => l.read s.1 s.2) s := by
    intro ls s
    rw [List.foldl_map, List.foldl_map]
    congr 1
    funext s l
    apply l.1.parseLineEntry_text
    obtain ⟨l, eol⟩ := l
    cases eol
    · exact nofun
    · intro c hc
      rw [List.mem_singleton.mp hc]
      rfl
  have hlast : ∀ s : IniDocument × Str,
      parseLineEntry s.1 s.2 (trim ((t.last.map IniLine.text).getD [])) =
        t.last.toList.foldl (fun s l => l.read s.1 s.2) s := by
    intro s
    cases t.last with
    | none => rfl
    | some l =>
      have h : parseLineEntry s.1 s.2 (trim (l.text ++ [])) = l.read s.1 s.2 :=
        l.parseLineEntry_text (List.forall_mem_nil _) s.1 s.2
      rwa [List.append_nil] at h
  rw [parseString, splitOnP_text, List.foldl_append, hread, List.foldl_cons, List.foldl_nil, hlast,
    ← List.foldl_append, read_lines]
  rfl

/-- **What a text configures.** A section, its name in any case, has exactly the
entries written under its headers, in order; a key, in any case, has its first
value; and the sections are listed in the order of their first entries. -/
theorem parseString_text :
    (∀ sect, (parseString t.text).getSectionEntries sect = IniDocument.entriesUnder sect t.written) ∧
      (∀ sect key, (parseString t.text).getString sect key =
        ((IniDocument.entriesUnder sect t.written).find? fun e =>
          IniDocument.normalizeKey e.key = IniDocument.normalizeKey key).map IniEntry.value) ∧
      (parseString t.text).getSectionNames = IniDocument.firstNames (t.written.map Prod.fst) := by
  rw [parseString_eq]
  refine ⟨IniDocument.getSectionEntries_ofEntries t.written, fun sect key => ?_,
    IniDocument.getSectionNames_ofEntries t.written⟩
  rw [IniDocument.getString_eq, IniDocument.getSectionEntries_ofEntries]

instance (key : Str) : Decidable (KeyText key) :=
  decidable_of_iff ('=' ∉ key ∧ '\n' ∉ key ∧
      ((trim key).head?.any fun c => c ≠ '[' ∧ isComment c = false) = true)
    ⟨fun h => ⟨h.1, h.2.1, h.2.2⟩, fun h => ⟨h.noEqual, h.noNewline, h.first⟩⟩

example : (IniText.mk [(.header [] " Actions ".toList [] (by decide) (by decide) (by decide), .crlf)]
    (some (.entry "R ".toList " !a=b;".toList (by decide) (by decide)))).text =
      "[ Actions ]\r\nR = !a=b;".toList := rfl

end IniText
end Launchpad
