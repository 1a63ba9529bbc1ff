/-
# Headers of legacy texts

A header is a section to the new parser only if its line ends in `]`, and then its
name is all the text inside. The section an entry is in is the latest header that
is one: the two parsers find the same exactly if the headers before the entry
agree (`agree_iff`). If one entry is in another section for the new parser, some
section has fewer entries than it had: a section that takes entries from others
loses none, since no two headers have the same name (`agree_of_sublist`).
-/
import Launchpad.Legacy.IniText

namespace Launchpad
namespace Legacy

open IniParser IniDocument

/-! ### Headers -/

/-- A header line: the name and what follows its `]`. -/
structure Header where
  name : Str
  rest : Str
  isName : SectionName name

namespace Header

variable (h : Header)

/-- The line, from its `[` on, without the whitespace at its end. -/
def line : Str := '[' :: (h.name ++ ']' :: h.rest.rdropWhile isspace)

/-- The new parser takes the line for a header. -/
def closed : Prop := h.line.getLast? = some ']'

instance : Decidable h.closed := inferInstanceAs (Decidable (_ = _))

/-- Nothing but whitespace follows the name. -/
def bare : Prop := h.rest.rdropWhile isspace = []

instance : Decidable h.bare := inferInstanceAs (Decidable (_ = _))

/-- The section it is to the new parser. -/
def inner : Str := trim ((h.line.drop 1).take (h.line.length - 2))

/-- The entry the new parser takes it for if it is no header. -/
def stray : List IniEntry :=
  if '=' ∉ h.line then []
  else [⟨trim (h.line.takeWhile (· ≠ '=')), trim ((h.line.dropWhile (· ≠ '=')).drop 1)⟩]

end Header

/-- The section an entry is in for the legacy parser, after headers, latest first. -/
def legacyTag : List Header → Str
  | [] => "Default".toList
  | h :: hs => if h.name = [] then legacyTag hs else h.name

/-- And for the new parser. -/
def newTag : List Header → Str
  | [] => "default".toList
  | h :: hs => if h.closed then h.inner else newTag hs

theorem legacyTag_cons (h : Header) (hs : List Header) :
    legacyTag (h :: hs) = if h.name = [] then legacyTag hs else h.name := rfl

theorem newTag_cons (h : Header) (hs : List Header) :
    newTag (h :: hs) = if h.closed then h.inner else newTag hs := rfl

/-- Headers, latest first, that put an entry in the same section for both: the
latest that is one to either is bare and has a name, or it names the default
section and none is closed. -/
def Agree : List Header → Prop
  | [] => True
  | h :: hs =>
    if h.closed then h.bare ∧ h.name ≠ []
    else if h.name = [] then Agree hs
    else normalizeKey h.name = "default".toList ∧ ∀ g ∈ hs, ¬ g.closed

/-! ### Names -/

theorem tolower_eq_close {c : Char} : tolower c = ']' ↔ c = ']' :=
  ⟨eq_of_tolower_eq rfl, fun h => by rw [h]; rfl⟩

theorem close_mem_normalizeKey {s : Str} : ']' ∈ normalizeKey s ↔ ']' ∈ s := by
  simp only [normalizeKey, List.mem_map, tolower_eq_close, exists_eq_right]

theorem normalizeKey_eq_nil {s : Str} : normalizeKey s = [] ↔ s = [] := List.map_eq_nil_iff

theorem Header.close_notMem (h : Header) : ']' ∉ normalizeKey h.name := fun hmem =>
  (h.isName.chars _ (close_mem_normalizeKey.mp hmem)).1 rfl

theorem Header.inner_of_bare {h : Header} (hbare : h.bare) : h.inner = h.name := by
  have hline : h.line = '[' :: (h.name ++ [']']) := by rw [line, hbare]
  have hinside : (h.line.drop 1).take (h.line.length - 2) = h.name := by simp [hline]
  rw [inner, hinside, h.isName.trimmed]

theorem mem_trim {c : Char} (hc : isspace c = false) {s : Str} (hmem : c ∈ s) : c ∈ trim s := by
  obtain ⟨before, after, rfl⟩ := List.append_of_mem hmem
  rw [trim_append_cons hc]
  simp

/-- Unless it is bare, the text inside has a `]`. -/
theorem Header.close_mem_inner {h : Header} (hbare : ¬ h.bare) : ']' ∈ normalizeKey h.inner := by
  apply close_mem_normalizeKey.mpr
  apply mem_trim rfl
  have hinside : (h.line.drop 1).take (h.line.length - 2) =
      h.name ++ ']' :: (h.rest.rdropWhile isspace).dropLast := by
    calc (h.line.drop 1).take (h.line.length - 2)
        = (h.name ++ ']' :: h.rest.rdropWhile isspace).dropLast := by simp [line, List.dropLast_eq_take]
      _ = h.name ++ ']' :: (h.rest.rdropWhile isspace).dropLast := by
        rw [List.dropLast_append_cons, List.dropLast_cons_of_ne_nil hbare]
  rw [hinside]
  simp

/-! ### Tags -/

/-- A tag of the legacy parser has no `]` and is not empty. -/
theorem close_notMem_legacyTag : ∀ hs : List Header, ']' ∉ normalizeKey (legacyTag hs)
  | [] => by decide
  | h :: hs => by
    rw [legacyTag_cons]
    split_ifs
    · exact close_notMem_legacyTag hs
    · exact h.close_notMem

theorem legacyTag_ne_nil : ∀ hs : List Header, legacyTag hs ≠ []
  | [] => by decide
  | h :: hs => by
    rw [legacyTag_cons]
    split_ifs with hempty
    · exact legacyTag_ne_nil hs
    · exact hempty

/-- The section of an entry is the default one or has a header. -/
theorem legacyTag_cases : ∀ hs : List Header, legacyTag hs = "Default".toList ∨
    ∃ h ∈ hs, h.name = legacyTag hs
  | [] => .inl rfl
  | h :: hs => by
    rw [legacyTag_cons]
    split_ifs
    · rcases legacyTag_cases hs with hdefault | ⟨g, hg, hname⟩
      · exact .inl hdefault
      · exact .inr ⟨g, List.mem_cons_of_mem h hg, hname⟩
    · exact .inr ⟨h, List.mem_cons_self, rfl⟩

/-- For the new parser too, if it has a name the legacy one could have. -/
theorem newTag_cases : ∀ hs : List Header, ']' ∉ normalizeKey (newTag hs) →
    (newTag hs = "default".toList ∧ ∀ h ∈ hs, ¬ h.closed) ∨ ∃ h ∈ hs, h.name = newTag hs
  | [], _ => .inl ⟨rfl, List.forall_mem_nil _⟩
  | h :: hs, hclose => by
    rw [newTag_cons] at hclose ⊢
    by_cases hclosed : h.closed
    · rw [if_pos hclosed] at hclose ⊢
      by_cases hbare : h.bare
      · exact .inr ⟨h, List.mem_cons_self, (Header.inner_of_bare hbare).symm⟩
      · exact absurd (Header.close_mem_inner hbare) hclose
    · rw [if_neg hclosed] at hclose ⊢
      rcases newTag_cases hs hclose with ⟨hdefault, hnone⟩ | ⟨g, hg, hname⟩
      · refine .inl ⟨hdefault, fun g hg => ?_⟩
        rcases List.mem_cons.mp hg with rfl | hg
        · exact hclosed
        · exact hnone g hg
      · exact .inr ⟨g, List.mem_cons_of_mem h hg, hname⟩

theorem newTag_eq_default : ∀ {hs : List Header}, (∀ h ∈ hs, ¬ h.closed) → newTag hs = "default".toList
  | [], _ => rfl
  | h :: hs, hnone => by
    rw [newTag_cons, if_neg (hnone h List.mem_cons_self)]
    exact newTag_eq_default fun g hg => hnone g (List.mem_cons_of_mem h hg)

/-- No two headers have the same name. -/
def Distinct (hs : List Header) : Prop := (hs.map fun h => normalizeKey h.name).Nodup

theorem Distinct.tail {h : Header} {hs : List Header} (hdistinct : Distinct (h :: hs)) : Distinct hs :=
  (List.nodup_cons.mp hdistinct).2

theorem Distinct.ne {h g : Header} {hs : List Header} (hdistinct : Distinct (h :: hs)) (hg : g ∈ hs) :
    normalizeKey g.name ≠ normalizeKey h.name := by
  intro heq
  exact (List.nodup_cons.mp hdistinct).1 (List.mem_map.mpr ⟨g, hg, heq⟩)

theorem Distinct.suffix {s hs : List Header} (hdistinct : Distinct hs) (hsuffix : s <:+ hs) : Distinct s :=
  List.Nodup.sublist (hsuffix.sublist.map _) hdistinct

/-- The headers put an entry in the same section for both exactly if they agree. -/
theorem agree_iff : ∀ {hs : List Header}, Distinct hs →
    (Agree hs ↔ normalizeKey (legacyTag hs) = normalizeKey (newTag hs))
  | [], _ => iff_of_true trivial (by decide +kernel)
  | h :: hs, hdistinct => by
    rw [Agree, legacyTag_cons, newTag_cons]
    by_cases hclosed : h.closed
    · rw [if_pos hclosed, if_pos hclosed]
      by_cases hbare : h.bare
      · rw [Header.inner_of_bare hbare]
        by_cases hempty : h.name = []
        · rw [if_pos hempty, hempty]
          refine iff_of_false (fun hagree => hagree.2 rfl) fun heq => ?_
          exact legacyTag_ne_nil hs (normalizeKey_eq_nil.mp heq)
        · rw [if_neg hempty]
          exact iff_of_true ⟨hbare, hempty⟩ rfl
      · refine iff_of_false (fun hagree => hbare hagree.1) fun heq => ?_
        have hclose := Header.close_mem_inner hbare
        rw [← heq] at hclose
        split_ifs at hclose
        · exact close_notMem_legacyTag hs hclose
        · exact h.close_notMem hclose
    · rw [if_neg hclosed, if_neg hclosed]
      by_cases hempty : h.name = []
      · rw [if_pos hempty, if_pos hempty]
        exact agree_iff hdistinct.tail
      · rw [if_neg hempty, if_neg hempty]
        constructor
        · rintro ⟨hdefault, hnone⟩
          rw [hdefault, newTag_eq_default hnone]
          rfl
        · intro heq
          rcases newTag_cases hs (heq ▸ h.close_notMem) with ⟨hdefault, hnone⟩ | ⟨g, hg, hname⟩
          · rw [heq, hdefault]
            exact ⟨rfl, hnone⟩
          · rw [← hname] at heq
            exact absurd heq.symm (hdistinct.ne hg)

/-! ### The order of headers -/

/-- An entry that follows another in a section of the new parser's: if the
legacy one had the earlier entry there, so had the new one. -/
theorem newTag_of_suffix {n : Str} (hn : ']' ∉ n) (hdefault : n ≠ "default".toList) :
    ∀ {hs s : List Header}, Distinct hs → s <:+ hs → normalizeKey (newTag hs) = n →
      normalizeKey (legacyTag s) = n → normalizeKey (newTag s) = n := by
  intro hs
  induction hs with
  | nil =>
    intro s _ hsuffix hnew _
    rw [List.suffix_nil.mp hsuffix, hnew]
  | cons h hs ih =>
    intro s hdistinct hsuffix hnew hlegacy
    rcases List.suffix_cons_iff.mp hsuffix with rfl | hsuffix
    · exact hnew
    · rw [newTag_cons] at hnew
      by_cases hclosed : h.closed
      · rw [if_pos hclosed] at hnew
        have hbare : h.bare := by
          by_contra hbare
          exact hn (hnew ▸ Header.close_mem_inner hbare)
        rw [Header.inner_of_bare hbare] at hnew
        rcases legacyTag_cases s with heq | ⟨g, hg, hname⟩
        · rw [heq] at hlegacy
          exact absurd hlegacy.symm hdefault
        · rw [← hname, ← hnew] at hlegacy
          exact absurd hlegacy (hdistinct.ne (hsuffix.subset hg))
      · rw [if_neg hclosed] at hnew
        exact ih hdistinct.tail hsuffix hnew hlegacy

/-- And the other way round. -/
theorem legacyTag_of_suffix {n : Str} (hn : ']' ∉ n) (hdefault : n ≠ "default".toList) :
    ∀ {hs s : List Header}, Distinct hs → s <:+ hs → normalizeKey (legacyTag hs) = n →
      normalizeKey (newTag s) = n → normalizeKey (legacyTag s) = n := by
  intro hs
  induction hs with
  | nil =>
    intro s _ hsuffix hlegacy _
    rw [List.suffix_nil.mp hsuffix, hlegacy]
  | cons h hs ih =>
    intro s hdistinct hsuffix hlegacy hnew
    rcases List.suffix_cons_iff.mp hsuffix with rfl | hsuffix
    · exact hlegacy
    · rw [legacyTag_cons] at hlegacy
      by_cases hempty : h.name = []
      · rw [if_pos hempty] at hlegacy
        exact ih hdistinct.tail hsuffix hlegacy hnew
      · rw [if_neg hempty] at hlegacy
        rcases newTag_cases s (hnew ▸ hn) with ⟨heq, _⟩ | ⟨g, hg, hname⟩
        · rw [heq] at hnew
          exact absurd hnew.symm hdefault
        · rw [← hname, ← hlegacy] at hnew
          exact absurd hnew (hdistinct.ne (hsuffix.subset hg))

/-! ### Entries -/

/-- Entries with the headers before them, each in the section its headers put it
in. -/
def tagged (tag : List Header → Str) (es : List (List Header × IniEntry)) : List (Str × IniEntry) :=
  es.map fun e => (tag e.1, e.2)

variable {es : List (List Header × IniEntry)} {all : List Header}

theorem entriesUnder_tagged (tag : List Header → Str) (name : Str) (es : List (List Header × IniEntry)) :
    entriesUnder name (tagged tag es) =
      (es.filter fun e => normalizeKey (tag e.1) = normalizeKey name).map Prod.snd := by
  rw [entriesUnder, tagged, List.filter_map, List.map_map]
  rfl

/-- Where the new parser has all its entries of a section from the legacy one, but
not all of those, some are missing. -/
theorem not_sublist_of_lost {name : Str}
    (honly : ∀ e ∈ es, normalizeKey (newTag e.1) = normalizeKey name →
      normalizeKey (legacyTag e.1) = normalizeKey name)
    {e : List Header × IniEntry} (he : e ∈ es) (hlegacy : normalizeKey (legacyTag e.1) = normalizeKey name)
    (hnew : normalizeKey (newTag e.1) ≠ normalizeKey name) :
    ¬ (entriesUnder name (tagged legacyTag es)).Sublist (entriesUnder name (tagged newTag es)) := by
  intro hsublist
  have hle := hsublist.length_le
  rw [entriesUnder_tagged, entriesUnder_tagged, List.length_map, List.length_map] at hle
  have hboth : es.filter (fun e => normalizeKey (newTag e.1) = normalizeKey name) =
      (es.filter fun e => normalizeKey (legacyTag e.1) = normalizeKey name).filter
        fun e => normalizeKey (newTag e.1) = normalizeKey name := by
    rw [List.filter_filter]
    apply List.filter_congr
    intro e he
    have hmem := honly e he
    by_cases h : normalizeKey (newTag e.1) = normalizeKey name
    · simp [h, hmem h]
    · simp [h]
  have hlt : (es.filter fun e => normalizeKey (newTag e.1) = normalizeKey name).length <
      (es.filter fun e => normalizeKey (legacyTag e.1) = normalizeKey name).length := by
    rw [hboth]
    apply List.length_filter_lt_length_iff_exists.mpr
    exact ⟨e, List.mem_filter.mpr ⟨he, decide_eq_true hlegacy⟩, by simpa using hnew⟩
  omega

/-- If every section keeps its entries, every entry keeps its section. -/
theorem agree_of_sublist (hdistinct : Distinct all) (hsuffix : ∀ e ∈ es, e.1 <:+ all)
    (h : ∀ name, (entriesUnder name (tagged legacyTag es)).Sublist (entriesUnder name (tagged newTag es))) :
    ∀ e ∈ es, normalizeKey (legacyTag e.1) = normalizeKey (newTag e.1) := by
  by_contra hlost
  by_cases hnamed : ∃ e ∈ es, normalizeKey (legacyTag e.1) ≠ normalizeKey (newTag e.1) ∧
      normalizeKey (legacyTag e.1) ≠ "default".toList
  · obtain ⟨e, he, hne, hdefault⟩ := hnamed
    refine not_sublist_of_lost (fun g hg hnew => ?_) he rfl hne.symm (h (legacyTag e.1))
    have hclose := close_notMem_legacyTag e.1
    rcases List.suffix_or_suffix_of_suffix (hsuffix g hg) (hsuffix e he) with hge | heg
    · exact legacyTag_of_suffix hclose hdefault (hdistinct.suffix (hsuffix e he)) hge rfl hnew
    · exact absurd (newTag_of_suffix hclose hdefault (hdistinct.suffix (hsuffix g hg)) heg hnew rfl) hne.symm
  · push Not at hlost hnamed
    obtain ⟨e, he, hne⟩ := hlost
    have hdefault := hnamed e he hne
    refine not_sublist_of_lost (fun g hg hnew => ?_) he (hdefault.trans rfl) ?_ (h "default".toList)
    · by_cases hsame : normalizeKey (legacyTag g.1) = normalizeKey (newTag g.1)
      · exact hsame.trans hnew
      · exact hnamed g hg hsame
    · intro hnew
      exact hne (hdefault.trans hnew.symm)

end Legacy
end Launchpad
