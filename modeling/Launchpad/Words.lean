/-
# Words and lines of a text

`words sep l` are the maximal runs of non-separators of `l`, what reading a
stream word by word yields. The words of a text cut at a separator are the words
of its two parts (`words_append_cons`), a run of non-separators is one word
(`words_of_word`), and no word is empty or has a separator in it
(`word_of_mem_words`). A text written line by line is cut into its lines
(`splitOnP_lines`). However words are laid out, they are read back
(`Layout.words_text`).
-/
import Mathlib.Data.List.Basic
import Mathlib.Data.List.TakeWhile

namespace Words

variable {α : Type*} {sep : α → Bool}

/-- A word: some non-separators and nothing else. -/
def IsWord (sep : α → Bool) (w : List α) : Prop := w ≠ [] ∧ ∀ x ∈ w, sep x = false

instance [DecidableEq α] (sep : α → Bool) (w : List α) : Decidable (IsWord sep w) :=
  inferInstanceAs (Decidable (_ ∧ _))

def words (sep : α → Bool) (l : List α) : List (List α) :=
  (l.splitOnP sep).filter fun w => !w.isEmpty

@[simp] theorem words_nil : words sep [] = [] := by simp [words]

theorem words_append_cons (l l' : List α) {x : α} (hx : sep x = true) :
    words sep (l ++ x :: l') = words sep l ++ words sep l' := by
  rw [words, List.splitOnP_append_cons l l' hx, List.filter_append]
  rfl

theorem words_cons (l : List α) {x : α} (hx : sep x = true) : words sep (x :: l) = words sep l := by
  have h := words_append_cons [] l hx
  rwa [words_nil, List.nil_append, List.nil_append] at h

theorem words_seps_append {s : List α} (hs : ∀ x ∈ s, sep x = true) (l : List α) :
    words sep (s ++ l) = words sep l := by
  induction s with
  | nil => rfl
  | cons x s ih =>
    rw [List.cons_append, words_cons _ (hs x List.mem_cons_self)]
    exact ih fun y hy => hs y (List.mem_cons_of_mem x hy)

theorem words_of_word {w : List α} (h : IsWord sep w) : words sep w = [w] := by
  rw [words, List.splitOnP_eq_singleton h.2]
  simp [h.1]

/-- The first word of a text that begins with it, and the separator after it. -/
theorem words_cons_word (l : List α) {x : α} (hx : sep x = false) :
    words sep (x :: l) = (x :: l.takeWhile fun y => !sep y) ::
      words sep (l.dropWhile fun y => !sep y).tail := by
  have hsplit : x :: l = (x :: l.takeWhile fun y => !sep y) ++ l.dropWhile fun y => !sep y := by
    rw [List.cons_append, List.takeWhile_append_dropWhile]
  have hword : IsWord sep (x :: l.takeWhile fun y => !sep y) := by
    refine ⟨List.cons_ne_nil _ _, fun y hy => ?_⟩
    rcases List.mem_cons.mp hy with rfl | hy
    · exact hx
    · simpa using List.mem_takeWhile_imp hy
  rw [hsplit]
  cases hdrop : l.dropWhile fun y => !sep y with
  | nil => rw [List.append_nil, words_of_word hword, List.tail_nil, words_nil]
  | cons y tail =>
    have hy : sep y = true := by
      have hhead := List.head?_dropWhile_not (fun y => !sep y) l
      rw [hdrop] at hhead
      simpa using hhead
    rw [words_append_cons _ _ hy, words_of_word hword]
    rfl

theorem not_sep_of_mem_splitOnP : ∀ (l w : List α), w ∈ l.splitOnP sep → ∀ x ∈ w, sep x = false
  | [], w, hw, x, hx => by
    rw [List.splitOnP_nil, List.mem_singleton] at hw
    simp [hw] at hx
  | y :: l, w, hw, x, hx => by
    rw [List.splitOnP_cons_eq_if_modifyHead] at hw
    by_cases hy : sep y = true
    · rw [if_pos hy, List.mem_cons] at hw
      rcases hw with rfl | hw
      · exact nomatch hx
      · exact not_sep_of_mem_splitOnP l w hw x hx
    · rw [if_neg hy] at hw
      obtain ⟨v, vs, hl⟩ := List.exists_cons_of_ne_nil (List.splitOnP_ne_nil sep l)
      have hv := fun u => not_sep_of_mem_splitOnP l u
      rw [hl] at hv hw
      rw [List.modifyHead_cons, List.mem_cons] at hw
      rcases hw with rfl | hw
      · rw [List.mem_cons] at hx
        rcases hx with rfl | hx
        · simpa using hy
        · exact hv v List.mem_cons_self x hx
      · exact hv w (List.mem_cons_of_mem v hw) x hx

/-- A text of lines, each ended by a separator but the last, is cut into them. -/
theorem splitOnP_lines {x : α} (hx : sep x = true) {last : List α} (hlast : ∀ y ∈ last, sep y = false) :
    ∀ ls : List (List α), (∀ l ∈ ls, ∀ y ∈ l, sep y = false) →
      (ls.flatMap (· ++ [x]) ++ last).splitOnP sep = ls ++ [last]
  | [], _ => List.splitOnP_eq_singleton hlast
  | l :: ls, h => by
    have ih := splitOnP_lines hx hlast ls fun l' hl' => h l' (List.mem_cons_of_mem l hl')
    have htext : (l :: ls).flatMap (· ++ [x]) ++ last = l ++ x :: (ls.flatMap (· ++ [x]) ++ last) := by
      simp
    rw [htext, List.splitOnP_append_cons l _ hx, ih,
      List.splitOnP_eq_singleton (h l List.mem_cons_self)]
    rfl

/-- Words joined by a separator are read back. -/
theorem words_intercalate {x : α} (hx : sep x = true) : ∀ ws : List (List α), (∀ w ∈ ws, IsWord sep w) →
    words sep ([x].intercalate ws) = ws
  | [], _ => words_nil
  | [w], h => by
    have hw : [x].intercalate [w] = w := by simp [List.intercalate]
    rw [hw, words_of_word (h w List.mem_cons_self)]
  | w :: v :: ws, h => by
    have ih := words_intercalate hx (v :: ws) fun u hu => h u (List.mem_cons_of_mem w hu)
    have hcons : [x].intercalate (w :: v :: ws) = w ++ x :: [x].intercalate (v :: ws) := by
      simp [List.intercalate]
    rw [hcons, words_append_cons _ _ hx, words_of_word (h w List.mem_cons_self), ih]
    rfl

/-- What is read word by word is words. -/
theorem word_of_mem_words {l w : List α} (hw : w ∈ words sep l) : IsWord sep w := by
  rw [words, List.mem_filter] at hw
  exact ⟨by simpa using hw.2, not_sep_of_mem_splitOnP l w hw.1⟩

/-! ### Words laid out -/

/-- Words with separators before the first and after each of them: some, where
another follows. -/
structure Layout (sep : α → Bool) where
  lead : List α
  items : List (List α × List α)
  lead_sep : lead.all sep = true
  gap_sep : ∀ i ∈ items, i.2.all sep = true
  gap_ne : ∀ i ∈ items.dropLast, i.2 ≠ []

namespace Layout

def text (l : Layout sep) : List α := l.lead ++ l.items.flatMap fun i => i.1 ++ i.2

def words (l : Layout sep) : List (List α) := l.items.map Prod.fst

theorem sep_of_mem_lead (l : Layout sep) : ∀ x ∈ l.lead, sep x = true :=
  List.all_eq_true.mp l.lead_sep

theorem sep_of_mem_gap (l : Layout sep) : ∀ i ∈ l.items, ∀ x ∈ i.2, sep x = true :=
  fun i hi => List.all_eq_true.mp (l.gap_sep i hi)

/-- The same text, where more is a separator. -/
def widen (l : Layout sep) {sep' : α → Bool} (h : ∀ x, sep x = true → sep' x = true) : Layout sep' where
  lead := l.lead
  items := l.items
  lead_sep := List.all_eq_true.mpr fun x hx => h x (l.sep_of_mem_lead x hx)
  gap_sep i hi := List.all_eq_true.mpr fun x hx => h x (l.sep_of_mem_gap i hi x hx)
  gap_ne := l.gap_ne

end Layout

theorem words_append_gap {w g : List α} (hw : IsWord sep w) (hg : ∀ x ∈ g, sep x = true) (l : List α)
    (hne : g = [] → l = []) : words sep (w ++ g ++ l) = w :: words sep l := by
  cases g with
  | nil =>
    rw [hne rfl, List.append_nil, List.append_nil, words_of_word hw, words_nil]
  | cons x g =>
    have hseps : words sep (g ++ l) = words sep l :=
      words_seps_append (fun y hy => hg y (List.mem_cons_of_mem x hy)) l
    rw [List.append_assoc, List.cons_append, words_append_cons _ _ (hg x List.mem_cons_self),
      words_of_word hw, hseps]
    rfl

theorem words_items : ∀ items : List (List α × List α), (∀ i ∈ items, IsWord sep i.1) →
    (∀ i ∈ items, ∀ x ∈ i.2, sep x = true) → (∀ i ∈ items.dropLast, i.2 ≠ []) →
    words sep (items.flatMap fun i => i.1 ++ i.2) = items.map Prod.fst
  | [], _, _, _ => words_nil
  | i :: items, hword, hgap, hne => by
    have ih := words_items items (fun j hj => hword j (List.mem_cons_of_mem i hj))
      (fun j hj => hgap j (List.mem_cons_of_mem i hj)) fun j hj => hne j (by
        cases items with
        | nil => exact nomatch hj
        | cons k items => exact List.mem_cons_of_mem i hj)
    have hlast : i.2 = [] → (items.flatMap fun j => j.1 ++ j.2) = [] := by
      intro hempty
      cases items with
      | nil => rfl
      | cons k items => exact absurd hempty (hne i List.mem_cons_self)
    rw [List.flatMap_cons, words_append_gap (hword i List.mem_cons_self) (hgap i List.mem_cons_self) _ hlast,
      ih]
    rfl

/-- Words laid out are read back. -/
theorem Layout.words_text (l : Layout sep) (h : ∀ w ∈ l.words, IsWord sep w) :
    Words.words sep l.text = l.words := by
  unfold text
  rw [words_seps_append l.sep_of_mem_lead]
  refine words_items l.items (fun i hi => ?_) l.sep_of_mem_gap l.gap_ne
  exact h i.1 (List.mem_map_of_mem hi)

end Words
