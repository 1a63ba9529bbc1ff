/-
# Legacy INI texts

The texts both programs are given: lines of four shapes, each with its end. The
legacy scanner takes each line for what it was written as (`parseFrom_line`),
though a pointer that has just read a value may be on the next line already; a
header is followed by any text. What the tables hold is kept by every line
(`DbInv.lines`), so read back, a section has the entries written after its header,
with headers without a name left out (`pairsOf_text`). The tables are large enough
for it (`room`).
-/
import Launchpad.Legacy.IniTables

namespace Launchpad
namespace Legacy

open IniParser IniDocument

/-! ### Lines -/

/-- Spaces and tabs. -/
def Gap (s : Str) : Prop := ∀ c ∈ s, c = ' ' ∨ c = '\t'

/-- Text within a line. -/
def InLine (s : Str) : Prop := ∀ c ∈ s, c ≠ '\n' ∧ c ≠ '\x00'

instance (s : Str) : Decidable (Gap s) := List.decidableBAll _ _

instance (s : Str) : Decidable (InLine s) := List.decidableBAll _ _

/-- The name in a header: it ends at the first `]` and has no blanks around it. -/
structure SectionName (name : Str) : Prop where
  chars : ∀ c ∈ name, c ≠ ']' ∧ c ≠ '\n' ∧ c ≠ '\r' ∧ c ≠ '\x00'
  trimmed : trim name = name

instance (name : Str) : Decidable (SectionName name) :=
  haveI : Decidable (∀ c ∈ name, c ≠ ']' ∧ c ≠ '\n' ∧ c ≠ '\r' ∧ c ≠ '\x00') := List.decidableBAll _ _
  decidable_of_iff ((∀ c ∈ name, c ≠ ']' ∧ c ≠ '\n' ∧ c ≠ '\r' ∧ c ≠ '\x00') ∧ trim name = name)
    ⟨fun h => ⟨h.1, h.2⟩, fun h => ⟨h.chars, h.trimmed⟩⟩

/-- A key or a value: printable, with no blanks around it. -/
structure Field (s : Str) : Prop where
  nonempty : s ≠ []
  printable : ∀ c ∈ s, 32 ≤ c.toNat ∧ c.toNat ≤ 126
  trimmed : trim s = s

/-- A key does not start like a header or a comment, and has no `=`. -/
structure KeyField (s : Str) : Prop extends Field s where
  noEqual : '=' ∉ s
  first : (s.head?.any fun c => c ≠ '[' ∧ isComment c = false) = true

instance (s : Str) : Decidable (Field s) :=
  haveI : Decidable (∀ c ∈ s, 32 ≤ c.toNat ∧ c.toNat ≤ 126) := List.decidableBAll _ _
  decidable_of_iff (s ≠ [] ∧ (∀ c ∈ s, 32 ≤ c.toNat ∧ c.toNat ≤ 126) ∧ trim s = s)
    ⟨fun h => ⟨h.1, h.2.1, h.2.2⟩, fun h => ⟨h.nonempty, h.printable, h.trimmed⟩⟩

instance (s : Str) : Decidable (KeyField s) :=
  decidable_of_iff (Field s ∧ '=' ∉ s ∧ (s.head?.any fun c => c ≠ '[' ∧ isComment c = false) = true)
    ⟨fun h => ⟨h.1, h.2.1, h.2.2⟩, fun h => ⟨h.toField, h.noEqual, h.first⟩⟩

inductive Line
  | blank (gap : Str) (hgap : Gap gap)
  | comment (gap : Str) (mark : Char) (rest : Str) (hgap : Gap gap) (hmark : isComment mark = true)
    (hrest : InLine rest)
  | header (gap name rest : Str) (hgap : Gap gap) (hname : SectionName name) (hrest : InLine rest)
  | entry (before key left right value after : Str) (hbefore : Gap before) (hkey : KeyField key)
    (hleft : Gap left) (hright : Gap right) (hvalue : Field value) (hafter : Gap after)

namespace Line

def text : Line → Str
  | blank gap _ => gap
  | comment gap mark rest _ _ _ => gap ++ mark :: rest
  | header gap name rest _ _ _ => gap ++ '[' :: (name ++ ']' :: rest)
  | entry before key left right value after _ _ _ _ _ _ =>
    before ++ (key ++ (left ++ '=' :: (right ++ (value ++ after))))

/-- What a line stands for in the legacy tables. -/
def enter (db : IniDb) : Line → IniDb
  | header _ name _ _ _ _ => if name = [] then db else db.enterSection name
  | entry _ key _ _ value _ _ _ _ _ _ _ => db.addKey key value
  | _ => db

end Line

/-! ### Scanning a line -/

theorem skipws_append {space : Str} (h : ∀ c ∈ space, c = ' ' ∨ c = '\t' ∨ c = '\r') (p : Str) :
    skipws (space ++ p) = skipws p :=
  dropWhile_append_space (fun c hc => decide_eq_true (h c hc)) p

theorem skipws_cons {c : Char} (h : ¬ (c = ' ' ∨ c = '\t' ∨ c = '\r')) (p : Str) :
    skipws (c :: p) = c :: p := List.dropWhile_cons_of_neg (by simpa using h)

theorem Gap.space {gap : Str} (h : Gap gap) : ∀ c ∈ gap, c = ' ' ∨ c = '\t' ∨ c = '\r' := fun c hc =>
  (h c hc).imp_right Or.inl

theorem skipline_append {s : Str} (h : InLine s) (p : Str) : skipline (s ++ '\n' :: p) = p := by
  have hdrop : (s ++ '\n' :: p).dropWhile (fun c => c ≠ '\x00' ∧ c ≠ '\n') = '\n' :: p := by
    rw [List.dropWhile_append_of_pos fun c hc => decide_eq_true ⟨(h c hc).2, (h c hc).1⟩]
    rfl
  simp only [skipline, hdrop]
  rfl

theorem skipline_newline (p : Str) : skipline ('\n' :: p) = p :=
  skipline_append (s := []) (List.forall_mem_nil _) p

theorem parseFrom_nil (db : IniDb) : parseFrom db [] = db := rfl

/-- The rest of the text has no zero byte, so the loop goes on to its end. -/
theorem parseFrom_of_round {db db' : IniDb} {p p' : Str} (h : parseRound db p = (db', p'))
    (hnul : '\x00' ∉ p') : parseFrom db p = parseFrom db' p' := by
  rw [parseFrom_eq, h]
  by_cases hend : peek p' = '\x00'
  · rw [if_pos hend]
    cases p' with
    | nil => rfl
    | cons c p' => exact absurd (hend ▸ List.mem_cons_self) hnul
  · rw [if_neg hend]

/-- Blanks to the end of a line are skipped. -/
theorem parseFrom_newline (db : IniDb) {space : Str} (h : ∀ c ∈ space, c = ' ' ∨ c = '\t' ∨ c = '\r')
    {p : Str} (hnul : '\x00' ∉ p) : parseFrom db (space ++ '\n' :: p) = parseFrom db p := by
  apply parseFrom_of_round _ hnul
  have hskip : skipws (space ++ '\n' :: p) = '\n' :: p := by
    rw [skipws_append h, skipws_cons (by decide)]
  simp only [parseRound, hskip]
  rfl

theorem parseRound_gap (db : IniDb) {gap : Str} (h : Gap gap) (p : Str) :
    parseRound db (gap ++ p) = parseRound db p := by
  simp only [parseRound, skipws_append h.space]

theorem parseRound_comment (db : IniDb) {mark : Char} (hmark : isComment mark = true) (p : Str) :
    parseRound db (mark :: p) = (db, skipline (mark :: p)) := by
  rcases (of_decide_eq_true hmark : mark = ';' ∨ mark = '#') with rfl | rfl
  · rfl
  · rfl

theorem sectionNameLoop_append {name : Str} (h : ∀ c ∈ name, c ≠ ']' ∧ c ≠ '\n' ∧ c ≠ '\r' ∧ c ≠ '\x00')
    (p : Str) : ∀ len : ℤ, 0 < len → sectionNameLoop len (name ++ ']' :: p) = len + name.length := by
  induction name with
  | nil =>
    intro len _
    simp [sectionNameLoop]
  | cons c name ih =>
    intro len hlen
    obtain ⟨hclose, hnewline, hreturn, hnul⟩ := h c List.mem_cons_self
    have hloop := ih (fun c hc => h c (List.mem_cons_of_mem _ hc)) (len + 1) (by omega)
    rw [List.cons_append, sectionNameLoop, if_neg (by simp [hclose]; omega),
      if_neg (by simp [hnewline, hnul]), if_neg hreturn, if_neg (by omega), hloop]
    simp only [List.length_cons]
    omega

theorem parseSectionName_append {name : Str} (h : SectionName name) (p : Str) :
    parseSectionName (name ++ ']' :: p) = if name = [] then -1 else (name.length : ℤ) := by
  cases name with
  | nil => rfl
  | cons c name =>
    obtain ⟨hclose, hnewline, hreturn, hnul⟩ := h.chars c List.mem_cons_self
    have hloop := sectionNameLoop_append (fun c hc => h.chars c (List.mem_cons_of_mem _ hc)) p 1 (by omega)
    rw [parseSectionName, List.cons_append, sectionNameLoop, if_neg (by simp [hclose]),
      if_neg (by simp [hnewline, hnul]), if_neg hreturn, if_pos rfl, hloop, if_neg (List.cons_ne_nil _ _)]
    simp only [List.length_cons]
    omega

theorem parseSection_append (db : IniDb) {name rest : Str} (hname : SectionName name)
    (hrest : InLine rest) (p : Str) :
    parseSection db (name ++ ']' :: (rest ++ '\n' :: p)) =
      (if name = [] then db else db.enterSection name, p) := by
  simp only [parseSection, parseSectionName_append hname]
  by_cases hempty : name = []
  · have hline : InLine (']' :: rest) := by
      intro c hc
      rcases List.mem_cons.mp hc with rfl | hc
      · decide
      · exact hrest c hc
    simp only [hempty]
    exact congrArg (db, ·) (skipline_append hline p)
  · have hlength : 0 < name.length := List.length_pos_iff.mpr hempty
    simp only [if_neg hempty]
    rw [if_pos (by omega)]
    simp [skipline_append hrest]

/-! ### Scanning an entry -/

theorem not_isspace_head {s : Str} (htrim : trim s = s) {c : Char} {rest : Str} (hs : s = c :: rest) :
    isspace c = false := by
  obtain ⟨tail, htail⟩ : trim s <+: s.dropWhile isspace := List.rdropWhile_prefix isspace _
  rw [htrim, hs, List.cons_append] at htail
  have hhead := List.head?_dropWhile_not isspace (c :: rest)
  rw [← htail] at hhead
  simpa using hhead

theorem not_isspace_getLast {s : Str} (htrim : trim s = s) {c : Char} (hs : s.getLast? = some c) :
    isspace c = false := by
  have hne : (s.dropWhile isspace).rdropWhile isspace ≠ [] := by
    rw [← trim, htrim]
    rintro rfl
    exact absurd hs (by simp)
  have hlast := List.rdropWhile_last_not isspace (s.dropWhile isspace) hne
  have hget : ((s.dropWhile isspace).rdropWhile isspace).getLast? = some c := by rwa [← trim, htrim]
  rw [List.getLast?_eq_some_getLast hne] at hget
  rw [Option.some.inj hget] at hlast
  simpa using hlast

theorem Field.exists_cons {s : Str} (h : Field s) : ∃ c rest, s = c :: rest ∧ isspace c = false := by
  obtain ⟨c, rest, hs⟩ := List.exists_cons_of_ne_nil h.nonempty
  exact ⟨c, rest, hs, not_isspace_head h.trimmed hs⟩

theorem Field.getLast {s : Str} (h : Field s) {c : Char} (hc : s.getLast? = some c) : 32 < c.toNat := by
  have hspace := not_isspace_getLast h.trimmed hc
  have hle := (h.printable c (List.mem_of_getLast? hc)).1
  refine lt_of_le_of_ne hle fun heq => ?_
  obtain rfl : c = ' ' := Char.toNat_inj.mp heq.symm
  exact absurd hspace (by decide)

theorem peek_drop (p : Str) (i : ℕ) : peek (p.drop i) = p[i]?.getD '\x00' := by
  rw [peek, List.headD_eq_head?_getD, List.head?_drop]

/-- From within the blanks after a text, or its last character, backing up stops
behind it. -/
theorem backUp_append {s blanks : Str} (hne : s ≠ []) (hlast : ∀ c, s.getLast? = some c → 32 < c.toNat)
    (hblanks : ∀ c ∈ blanks, c.toNat ≤ 32) (p : Str) : ∀ q, s.length ≤ q + 1 →
      q < s.length + blanks.length → backUp (s ++ (blanks ++ p)) q = s.length := by
  have hpos := List.length_pos_iff.mpr hne
  have hgetLast : ∀ q, s.length = q + 1 → 32 < (peek ((s ++ (blanks ++ p)).drop q)).toNat := by
    intro q hq
    have hin : q < s.length := by omega
    rw [peek_drop, List.getElem?_append_left hin, List.getElem?_eq_getElem hin]
    apply hlast
    rw [List.getLast?_eq_getElem?, hq, Nat.add_sub_cancel, List.getElem?_eq_getElem hin]
    rfl
  intro q
  induction q with
  | zero =>
    intro hle _
    have hone : s.length = 1 := by omega
    have hlt := hgetLast 0 hone
    rw [List.drop_zero] at hlt
    rw [backUp, if_pos hlt, hone]
  | succ q ih =>
    intro hle hlt
    by_cases hend : s.length = q + 2
    · have hlt := hgetLast (q + 1) hend
      rw [backUp, if_neg (by omega), hend]
    · have hin : q + 1 - s.length < blanks.length := by omega
      have hblank : (peek ((s ++ (blanks ++ p)).drop (q + 1))).toNat ≤ 32 := by
        rw [peek_drop, List.getElem?_append_right (by omega), List.getElem?_append_left hin,
          List.getElem?_eq_getElem hin]
        exact hblanks _ (List.getElem_mem hin)
      rw [backUp, if_pos hblank]
      exact ih (by omega) (by omega)

theorem Gap.toNat_le {gap : Str} (h : Gap gap) : ∀ c ∈ gap, c.toNat ≤ 32 := by
  intro c hc
  rcases h c hc with rfl | rfl <;> decide

/-- A field has no control characters. -/
theorem Field.ne_of_mem {s : Str} (h : Field s) {c d : Char} (hc : c ∈ s) (hd : d.toNat < 32) : c ≠ d := by
  rintro rfl
  have hle := (h.printable c hc).1
  omega

theorem parseKeyName_append {key left : Str} (hkey : KeyField key) (hleft : Gap left) (p : Str) :
    parseKeyName (key ++ (left ++ '=' :: p)) = key.length := by
  have hpos := List.length_pos_iff.mpr hkey.nonempty
  have hchars : ∀ c ∈ key ++ left,
      decide (c ≠ '=' ∧ c ≠ '\n' ∧ c ≠ '\r' ∧ c ≠ '\x00') = true := by
    refine List.forall_mem_append.mpr ⟨fun c hc => ?_, fun c hc => ?_⟩
    · have hequal : c ≠ '=' := fun heq => hkey.noEqual (heq ▸ hc)
      exact decide_eq_true ⟨hequal, hkey.ne_of_mem hc (by decide), hkey.ne_of_mem hc (by decide),
        hkey.ne_of_mem hc (by decide)⟩
    · rcases hleft c hc with rfl | rfl <;> decide
  have htake : (key ++ (left ++ '=' :: p)).takeWhile
      (fun c => c ≠ '=' ∧ c ≠ '\n' ∧ c ≠ '\r' ∧ c ≠ '\x00') = key ++ left := by
    rw [← List.append_assoc, List.takeWhile_append_of_pos hchars]
    simp
  have hpeek : peek ((key ++ (left ++ '=' :: p)).drop (key ++ left).length) = '=' := by
    rw [← List.append_assoc, List.drop_left]
    rfl
  simp only [parseKeyName, htake, hpeek, if_true]
  rw [List.length_append, if_pos (by omega)]
  exact backUp_append hkey.nonempty (fun c => hkey.getLast) hleft.toNat_le ('=' :: p) _ (by omega)
    (by omega)

theorem parseKeyValue_append {value after : Str} (hvalue : Field value) (hafter : Gap after)
    {stop : Char} (hstop : stop = '\n' ∨ stop = '\r') (p : Str) :
    parseKeyValue (value ++ (after ++ stop :: p)) = value.length := by
  have hpos := List.length_pos_iff.mpr hvalue.nonempty
  have hchars : ∀ c ∈ value ++ after, decide (c ≠ '\n' ∧ c ≠ '\r' ∧ c ≠ '\x00') = true := by
    refine List.forall_mem_append.mpr ⟨fun c hc => ?_, fun c hc => ?_⟩
    · exact decide_eq_true ⟨hvalue.ne_of_mem hc (by decide), hvalue.ne_of_mem hc (by decide),
        hvalue.ne_of_mem hc (by decide)⟩
    · rcases hafter c hc with rfl | rfl <;> decide
  have htake : (value ++ (after ++ stop :: p)).takeWhile
      (fun c => c ≠ '\n' ∧ c ≠ '\r' ∧ c ≠ '\x00') = value ++ after := by
    rw [← List.append_assoc, List.takeWhile_append_of_pos hchars, List.takeWhile_cons_of_neg,
      List.append_nil]
    rcases hstop with rfl | rfl <;> decide
  have hblanks : ∀ c ∈ after ++ [stop], c.toNat ≤ 32 := by
    refine List.forall_mem_append.mpr ⟨hafter.toNat_le, fun c hc => ?_⟩
    rw [List.mem_singleton.mp hc]
    rcases hstop with rfl | rfl <;> decide
  have hback := backUp_append hvalue.nonempty (fun c => hvalue.getLast) hblanks p
    (value ++ after).length (by rw [List.length_append]; omega)
    (by rw [List.length_append, List.length_append, List.length_singleton]; omega)
  rw [List.append_assoc, List.singleton_append] at hback
  simp only [parseKeyValue, htake]
  rw [if_pos (by rw [List.length_append]; omega)]
  exact hback

theorem skipws_field {s : Str} (h : Field s) (p : Str) : skipws (s ++ p) = s ++ p := by
  obtain ⟨c, rest, rfl, hc⟩ := h.exists_cons
  apply skipws_cons
  rintro (rfl | rfl | rfl) <;> exact absurd hc (by decide)

/-- A value is taken without the blanks after it; the pointer is one further. -/
theorem parseValue_append (db : IniDb) (name : Str) {value after : Str} (hvalue : Field value)
    (hafter : Gap after) {stop : Char} (hstop : stop = '\n' ∨ stop = '\r') (p : Str) :
    parseValue db name (value ++ (after ++ stop :: p)) =
      (db.addKey name value, if peek ((after ++ stop :: p).drop 1) = '\n' then
        skipline ((after ++ stop :: p).drop 1) else (after ++ stop :: p).drop 1) := by
  have hpos := List.length_pos_iff.mpr hvalue.nonempty
  have hdrop : (value ++ (after ++ stop :: p)).drop (value.length + 1) = (after ++ stop :: p).drop 1 := by
    rw [List.drop_append]
    simp
  simp only [parseValue, parseKeyValue_append hvalue hafter hstop, if_pos hpos, List.take_left, hdrop]

theorem parseRound_key (db : IniDb) {key : Str} (hkey : KeyField key) (p : Str) :
    parseRound db (key ++ p) = parseKey db (key ++ p) := by
  have hfirst := hkey.first
  obtain ⟨c, rest, rfl, hc⟩ := hkey.toField.exists_cons
  have hc' : c ≠ '[' ∧ isComment c = false := of_decide_eq_true hfirst
  have hnewline : ¬ (c = '\n' ∨ c = '\r') := by
    rintro (rfl | rfl) <;> exact absurd hc (by decide)
  have hcomment : ¬ (c = ';' ∨ c = '#') := of_decide_eq_false hc'.2
  have hskip : skipws (c :: (rest ++ p)) = c :: (rest ++ p) := skipws_field hkey.toField p
  have hpeek : peek (c :: (rest ++ p)) = c := rfl
  simp only [parseRound, List.cons_append, hskip, hpeek]
  rw [if_neg hnewline, if_neg hc'.1, if_neg hcomment]

theorem parseKey_append (db : IniDb) {key left right : Str} (hkey : KeyField key) (hleft : Gap left)
    (hright : Gap right) {value : Str} (hvalue : Field value) (p : Str) :
    parseKey db (key ++ (left ++ '=' :: (right ++ (value ++ p)))) = parseValue db key (value ++ p) := by
  have hpos := List.length_pos_iff.mpr hkey.nonempty
  have hequal : (if peek (left ++ '=' :: (right ++ (value ++ p))) ≠ '=' then
      skipws (left ++ '=' :: (right ++ (value ++ p))) else left ++ '=' :: (right ++ (value ++ p))) =
        '=' :: (right ++ (value ++ p)) := by
    cases left with
    | nil => rfl
    | cons c left =>
      have hc : c ≠ '=' := by
        rcases hleft c List.mem_cons_self with rfl | rfl <;> decide
      rw [if_pos (show peek (c :: left ++ _) ≠ '=' from hc), skipws_append hleft.space,
        skipws_cons (by decide)]
  simp only [parseKey, parseKeyName_append hkey hleft, if_pos hpos, List.take_left, List.drop_left, hequal,
    List.drop_succ_cons, List.drop_zero, skipws_append hright.space, skipws_field hvalue]

/-- Skipping an empty line early changes nothing. -/
theorem parseFrom_skipline (db : IniDb) {p : Str} (hnul : '\x00' ∉ p) :
    parseFrom db (if peek p = '\n' then skipline p else p) = parseFrom db p := by
  split_ifs with hpeek
  · cases p with
    | nil => rfl
    | cons c p =>
      obtain rfl : c = '\n' := hpeek
      rw [skipline_newline]
      exact (parseFrom_newline db (List.forall_mem_nil _) fun h => hnul (List.mem_cons_of_mem _ h)).symm
  · rfl

theorem notMem_skipline {p : Str} (hnul : '\x00' ∉ p) :
    '\x00' ∉ if peek p = '\n' then skipline p else p := by
  split_ifs with hpeek
  · cases p with
    | nil => exact hnul
    | cons c p =>
      obtain rfl : c = '\n' := hpeek
      rw [skipline_newline]
      exact fun h => hnul (List.mem_cons_of_mem _ h)
  · exact hnul

/-! ### Scanning a text -/

theorem eol_blanks (eol : Eol) : ∀ c ∈ eol.space, c = ' ' ∨ c = '\t' ∨ c = '\r' := by
  cases eol with
  | lf => exact List.forall_mem_nil _
  | crlf =>
    intro c hc
    exact .inr (.inr (List.mem_singleton.mp hc))

theorem InLine.append {s t : Str} (hs : InLine s) (ht : InLine t) : InLine (s ++ t) :=
  List.forall_mem_append.mpr ⟨hs, ht⟩

theorem InLine.cons {c : Char} {s : Str} (hnewline : c ≠ '\n') (hnul : c ≠ '\x00') (h : InLine s) :
    InLine (c :: s) := by
  intro d hd
  rcases List.mem_cons.mp hd with rfl | hd
  · exact ⟨hnewline, hnul⟩
  · exact h d hd

theorem inLine_of_blanks {s : Str} (h : ∀ c ∈ s, c = ' ' ∨ c = '\t' ∨ c = '\r') : InLine s := by
  intro c hc
  rcases h c hc with rfl | rfl | rfl <;> decide

/-- The tail of an entry's line ends at its newline. -/
theorem parseFrom_tail (db : IniDb) {after : Str} (hafter : Gap after) (eol : Eol) {p : Str}
    (hnul : '\x00' ∉ p) :
    parseFrom db ((after ++ (eol.space ++ '\n' :: p)).drop 1) = parseFrom db p := by
  rw [← List.append_assoc]
  have hblanks : ∀ c ∈ after ++ eol.space, c = ' ' ∨ c = '\t' ∨ c = '\r' :=
    List.forall_mem_append.mpr ⟨hafter.space, eol_blanks eol⟩
  cases hblank : after ++ eol.space with
  | nil => rfl
  | cons c blanks =>
    rw [hblank] at hblanks
    exact parseFrom_newline db (fun c hc => hblanks c (List.mem_cons_of_mem _ hc)) hnul

/-- A line stands in the tables for what it was written as. -/
theorem parseFrom_line (db : IniDb) (l : Line) (eol : Eol) {p : Str} (hnul : '\x00' ∉ p) :
    parseFrom db (l.text ++ (eol.space ++ '\n' :: p)) = parseFrom (l.enter db) p := by
  have heol : InLine eol.space := inLine_of_blanks (eol_blanks eol)
  cases l with
  | blank gap hgap =>
    rw [Line.text, ← List.append_assoc]
    exact parseFrom_newline db (List.forall_mem_append.mpr ⟨hgap.space, eol_blanks eol⟩) hnul
  | comment gap mark rest hgap hmark hrest =>
    apply parseFrom_of_round _ hnul
    have hline : InLine (mark :: (rest ++ eol.space)) := by
      intro c hc
      rcases List.mem_cons.mp hc with rfl | hc
      · constructor <;> rintro rfl <;> exact absurd hmark (by decide)
      · exact (hrest.append heol) c hc
    have htext : Line.text (.comment gap mark rest hgap hmark hrest) ++ (eol.space ++ '\n' :: p) =
        gap ++ mark :: (rest ++ eol.space ++ '\n' :: p) := by simp [Line.text]
    rw [htext, parseRound_gap db hgap, parseRound_comment db hmark]
    exact congrArg (db, ·) (skipline_append hline p)
  | header gap name rest hgap hname hrest =>
    apply parseFrom_of_round _ hnul
    have htext : Line.text (.header gap name rest hgap hname hrest) ++ (eol.space ++ '\n' :: p) =
        gap ++ '[' :: (name ++ ']' :: (rest ++ eol.space ++ '\n' :: p)) := by simp [Line.text]
    rw [htext, parseRound_gap db hgap]
    exact parseSection_append db hname (hrest.append heol) p
  | entry before key left right value after hbefore hkey hleft hright hvalue hafter =>
    obtain ⟨stop, q, hstop, heq⟩ : ∃ stop q, (stop = '\n' ∨ stop = '\r') ∧
        eol.space ++ '\n' :: p = stop :: q := by
      cases eol with
      | lf => exact ⟨_, _, .inl rfl, rfl⟩
      | crlf => exact ⟨_, _, .inr rfl, rfl⟩
    have htext : Line.text (.entry before key left right value after hbefore hkey hleft hright hvalue
        hafter) ++ (eol.space ++ '\n' :: p) =
        before ++ (key ++ (left ++ '=' :: (right ++ (value ++ (after ++ (eol.space ++ '\n' :: p)))))) := by
      simp [Line.text]
    have hround : parseRound db (before ++ (key ++ (left ++ '=' :: (right ++ (value ++
        (after ++ (eol.space ++ '\n' :: p))))))) = (db.addKey key value,
          if peek ((after ++ (eol.space ++ '\n' :: p)).drop 1) = '\n' then
            skipline ((after ++ (eol.space ++ '\n' :: p)).drop 1)
          else (after ++ (eol.space ++ '\n' :: p)).drop 1) := by
      rw [parseRound_gap db hbefore, parseRound_key db hkey, parseKey_append db hkey hleft hright hvalue,
        heq]
      exact parseValue_append db key hvalue hafter hstop q
    have hrest : '\x00' ∉ (after ++ (eol.space ++ '\n' :: p)).drop 1 := by
      have hline : InLine (after ++ eol.space) := (inLine_of_blanks hafter.space).append heol
      intro hmem
      have hmem := List.mem_of_mem_drop hmem
      rw [← List.append_assoc, List.mem_append, List.mem_cons] at hmem
      rcases hmem with hmem | hmem | hmem
      · exact (hline _ hmem).2 rfl
      · exact absurd hmem (by decide)
      · exact hnul hmem
    rw [htext, parseFrom_of_round hround (notMem_skipline hrest), parseFrom_skipline _ hrest]
    exact parseFrom_tail _ hafter eol hnul

/-! ### Texts -/

theorem Gap.inLine {gap : Str} (h : Gap gap) : InLine gap := inLine_of_blanks h.space

theorem Field.inLine {s : Str} (h : Field s) : InLine s := by
  intro c hc
  exact ⟨h.ne_of_mem hc (by decide), h.ne_of_mem hc (by decide)⟩

theorem Line.inLine_text (l : Line) : InLine l.text := by
  cases l with
  | blank gap hgap => exact hgap.inLine
  | comment gap mark rest hgap hmark hrest =>
    apply hgap.inLine.append
    apply InLine.cons _ _ hrest <;> rintro rfl <;> exact absurd hmark (by decide)
  | header gap name rest hgap hname hrest =>
    have hnameLine : InLine name := fun c hc => ⟨(hname.chars c hc).2.1, (hname.chars c hc).2.2.2⟩
    apply hgap.inLine.append
    exact .cons (by decide) (by decide) (hnameLine.append (.cons (by decide) (by decide) hrest))
  | entry before key left right value after hbefore hkey hleft hright hvalue hafter =>
    apply hbefore.inLine.append
    apply hkey.inLine.append
    apply hleft.inLine.append
    exact .cons (by decide) (by decide) (hright.inLine.append (hvalue.inLine.append hafter.inLine))

theorem length_addKey (db : IniDb) (key value : Str) :
    (db.addKey key value).pkeys.length = db.pkeys.length + 1 ∧
      (db.addKey key value).psections.length ≤ db.psections.length + 1 := by
  unfold IniDb.addKey
  by_cases hempty : db.psections = []
  · simp [hempty]
  · simp [hempty]

theorem length_enterSection (db : IniDb) (name : Str) :
    (db.enterSection name).pkeys.length = db.pkeys.length ∧
      (db.enterSection name).psections.length ≤ db.psections.length + 1 := by
  unfold IniDb.enterSection
  split_ifs
  · exact ⟨rfl, Nat.le_succ _⟩
  · exact ⟨rfl, by simp⟩

/-- A line that adds a row has three characters, and its newline. -/
theorem Line.enter_room (l : Line) (db : IniDb) :
    4 * (l.enter db).pkeys.length ≤ 4 * db.pkeys.length + (l.text.length + 1) ∧
      4 * (l.enter db).psections.length ≤ 4 * db.psections.length + (l.text.length + 1) := by
  cases l with
  | header gap name rest hgap hname hrest =>
    have htext : (Line.header gap name rest hgap hname hrest).text.length =
        gap.length + (name.length + (rest.length + 1) + 1) := by simp [text]
    rw [htext, enter]
    split_ifs with hempty
    · omega
    · have hpos := List.length_pos_iff.mpr hempty
      have hlength := length_enterSection db name
      omega
  | entry before key left right value after hbefore hkey hleft hright hvalue hafter =>
    have hkeyPos := List.length_pos_iff.mpr hkey.nonempty
    have hvaluePos := List.length_pos_iff.mpr hvalue.nonempty
    have hlength := length_addKey db key value
    simp only [text, enter, List.length_append, List.length_cons]
    omega
  | _ => exact ⟨Nat.le_add_right _ _, Nat.le_add_right _ _⟩

def Line.headerName : Line → Option Str
  | .header _ name _ _ _ _ => some name
  | _ => none

/-- The lines of a text, each ended by LF or CRLF; no section is written twice. -/
structure OldText where
  lines : List (Line × Eol)
  distinct : ((lines.filterMap fun l => l.1.headerName).map normalizeKey).Nodup

/-- The entries lines write for the legacy parser, each with its section: a header
without a name is none. -/
def legacyWritten : Str → List Line → List (Str × IniEntry)
  | _, [] => []
  | sect, .header _ name _ _ _ _ :: ls => legacyWritten (if name = [] then sect else name) ls
  | sect, .entry _ key _ _ value _ _ _ _ _ _ _ :: ls => (sect, ⟨key, value⟩) :: legacyWritten sect ls
  | sect, _ :: ls => legacyWritten sect ls

/-- The tables after lines stand for what was written before them and in them. -/
theorem DbInv.lines : ∀ (ls : List Line) {db : IniDb} {tag : Str} {entered : List Str}
    {es : List (Str × IniEntry)}, DbInv db tag entered es →
    ((ls.filterMap Line.headerName).map normalizeKey).Nodup →
    (∀ name ∈ ls.filterMap Line.headerName, normalizeKey name ∉ entered) →
    ∃ tag' entered', DbInv (ls.foldl Line.enter db) tag' entered' (es ++ legacyWritten tag ls)
  | [], db, tag, entered, es, h, _, _ => ⟨tag, entered, by simpa [legacyWritten] using h⟩
  | .blank _ _ :: ls, _, _, _, _, h, hdistinct, hfresh => DbInv.lines ls h hdistinct hfresh
  | .comment _ _ _ _ _ _ :: ls, _, _, _, _, h, hdistinct, hfresh => DbInv.lines ls h hdistinct hfresh
  | .entry _ key _ _ value _ _ _ _ _ _ _ :: ls, _, _, _, _, h, hdistinct, hfresh => by
    obtain ⟨tag', entered', hrest⟩ := DbInv.lines ls (h.addKey key value) hdistinct hfresh
    rw [List.append_assoc] at hrest
    exact ⟨tag', entered', hrest⟩
  | .header _ name _ _ _ _ :: ls, db, tag, entered, es, h, hdistinct, hfresh => by
    have hdistinct' : (normalizeKey name :: (ls.filterMap Line.headerName).map normalizeKey).Nodup :=
      hdistinct
    rw [List.nodup_cons] at hdistinct'
    by_cases hempty : name = []
    · have hrest := DbInv.lines ls h hdistinct'.2 fun n hn => hfresh n (List.mem_cons_of_mem _ hn)
      simpa [Line.enter, legacyWritten, hempty] using hrest
    · have hsection := h.enterSection (hfresh name List.mem_cons_self)
      have hrest := DbInv.lines ls hsection hdistinct'.2 fun n hn hmem => by
        rcases List.mem_cons.mp hmem with heq | hmem
        · exact hdistinct'.1 (heq ▸ List.mem_map_of_mem hn)
        · exact hfresh n (List.mem_cons_of_mem _ hn) hmem
      simpa [Line.enter, legacyWritten, hempty] using hrest

namespace OldText

variable (t : OldText)

def text : Str := t.lines.flatMap fun l => l.1.text ++ l.2.space ++ ['\n']

/-- What is written for the legacy parser. -/
def legacyEntries : List (Str × IniEntry) := legacyWritten "Default".toList (t.lines.map Prod.fst)

/-- The tables are those its lines stand for. -/
theorem parseIniFile_text : parseIniFile t.text = (t.lines.map Prod.fst).foldl Line.enter {} := by
  suffices h : ∀ (ls : List (Line × Eol)) (db : IniDb),
      parseFrom db (ls.flatMap fun l => l.1.text ++ l.2.space ++ ['\n']) =
        (ls.map Prod.fst).foldl Line.enter db by exact h t.lines {}
  intro ls
  induction ls with
  | nil => exact parseFrom_nil
  | cons l ls ih =>
    intro db
    have hnul : '\x00' ∉ ls.flatMap fun l => l.1.text ++ l.2.space ++ ['\n'] := by
      intro hmem
      obtain ⟨l, _, hl⟩ := List.mem_flatMap.mp hmem
      have hline : InLine (l.1.text ++ l.2.space) :=
        l.1.inLine_text.append (inLine_of_blanks (eol_blanks l.2))
      rcases List.mem_append.mp hl with hl | hl
      · exact (hline _ hl).2 rfl
      · exact absurd (List.mem_singleton.mp hl) (by decide)
    have hline := parseFrom_line db l.1 l.2 hnul
    rw [ih] at hline
    simpa using hline

/-- The tables have room for their rows: one for every four characters. -/
theorem room : 4 * (parseIniFile t.text).pkeys.length ≤ t.text.length ∧
    4 * (parseIniFile t.text).psections.length ≤ t.text.length := by
  suffices h : ∀ (ls : List (Line × Eol)) (db : IniDb),
      4 * ((ls.map Prod.fst).foldl Line.enter db).pkeys.length ≤
        4 * db.pkeys.length + (ls.flatMap fun l => l.1.text ++ l.2.space ++ ['\n']).length ∧
      4 * ((ls.map Prod.fst).foldl Line.enter db).psections.length ≤
        4 * db.psections.length + (ls.flatMap fun l => l.1.text ++ l.2.space ++ ['\n']).length by
    have hall := h t.lines {}
    rw [← t.parseIniFile_text] at hall
    simp only [List.length_nil, Nat.mul_zero, Nat.zero_add] at hall
    exact hall
  intro ls
  induction ls with
  | nil => exact fun db => ⟨le_rfl, le_rfl⟩
  | cons l ls ih =>
    intro db
    have hrest := ih (l.1.enter db)
    have hline := l.1.enter_room db
    simp only [List.map_cons, List.foldl_cons, List.flatMap_cons, List.length_append,
      List.length_singleton]
    omega

/-- **What a legacy text configures.** Every section has the entries written under
its header, its name in any case. -/
theorem pairsOf_text (name : Str) : pairsOf t.text name = entriesUnder name t.legacyEntries := by
  have hheaders : (t.lines.map Prod.fst).filterMap Line.headerName =
      t.lines.filterMap fun l => l.1.headerName := by
    rw [List.filterMap_map]
    rfl
  obtain ⟨tag, entered, hinv⟩ := dbInv_init.lines (t.lines.map Prod.fst)
    (hheaders ▸ t.distinct) fun _ _ => List.not_mem_nil
  rw [List.nil_append, ← parseIniFile_text] at hinv
  have hpairs := pairs_of_inv hinv name
  simp only [pairsOf, inidbOpen]
  by_cases hempty : (parseIniFile t.text).pkeys = []
  · have hnone : legacyWritten "Default".toList (t.lines.map Prod.fst) = [] := by
      have hlength := hinv.rows.length_eq
      rw [hempty] at hlength
      exact List.eq_nil_of_length_eq_zero hlength.symm
    rw [if_pos hempty, legacyEntries, hnone]
    rfl
  · rw [if_neg hempty]
    exact hpairs

end OldText

end Legacy
end Launchpad
