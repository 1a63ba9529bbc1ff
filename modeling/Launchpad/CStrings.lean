/-
# C strings in buffers of fixed size

A buffer is read up to its first zero byte. `strncpy` with the length of the
string it copies writes no zero byte after it, so what is read afterwards is the
new string over the old one (`Holds.strncpy`): a shorter string keeps the end of
the one before. Through a history of strings every one is read back as it was
copied exactly when none is shorter than one before it (`foldl_overlay_iff`).
-/
import Mathlib.Data.List.GetD
import Mathlib.Data.List.Induction

namespace CStrings

/-- The zero byte. -/
def nul : Char := '\x00'

section Buffers

variable {size : ℕ}

/-- The string in a buffer. -/
def text (b : Vector Char size) : List Char := b.toList.takeWhile (· ≠ nul)

/-- `strncpy`: the first `n` bytes are those of `src`, and zero bytes after its end. -/
def strncpy (dst : Vector Char size) (src : List Char) (n : ℕ) : Vector Char size :=
  .ofFn fun i => if i < n then src.getD i nul else dst[i]

/-- A buffer that is static and initialised with a string. -/
def ofText (s : List Char) : Vector Char size := .ofFn fun i => s.getD i nul

/-- The buffer holds a string, and zero bytes only after it. -/
structure Holds (b : Vector Char size) (s : List Char) : Prop where
  fits : s.length < size
  no_nul : nul ∉ s
  cells : ∀ i : Fin size, b[i] = s.getD i nul

variable {b : Vector Char size} {s v : List Char}

theorem holds_ofText (hfits : s.length < size) (hnul : nul ∉ s) :
    Holds (ofText s : Vector Char size) s := by
  refine ⟨hfits, hnul, fun i => ?_⟩
  simp [ofText]

theorem Holds.toList_eq (h : Holds b s) :
    b.toList = s ++ List.replicate (size - s.length) nul := by
  have hfits := h.fits
  refine List.ext_getElem (by simp; omega) fun i hi hi' => ?_
  have hlt : i < size := by simpa using hi
  have hcell : b[i] = s.getD i nul := h.cells ⟨i, hlt⟩
  rw [Vector.getElem_toList, hcell]
  by_cases hs : i < s.length
  · rw [List.getD_eq_getElem _ _ hs, List.getElem_append_left hs]
  · rw [List.getD_eq_default _ _ (by omega), List.getElem_append_right (by omega),
      List.getElem_replicate]

theorem Holds.text_eq (h : Holds b s) : text b = s := by
  have hpass : ∀ c ∈ s, decide (c ≠ nul) = true := by
    intro c hc
    apply decide_eq_true
    rintro rfl
    exact h.no_nul hc
  rw [text, h.toList_eq, List.takeWhile_append_of_pos hpass, List.takeWhile_replicate]
  simp

/-- What is read after `v` was written over `s` without a zero byte. -/
def overlay (s v : List Char) : List Char := v ++ s.drop v.length

/-- Copied with its own length, a string is written over the old one. -/
theorem Holds.strncpy (h : Holds b s) (hfits : v.length < size) (hnul : nul ∉ v) :
    Holds (strncpy b v v.length) (overlay s v) := by
  refine ⟨?_, ?_, fun i => ?_⟩
  · have hs := h.fits
    rw [overlay, List.length_append, List.length_drop]
    omega
  · intro hmem
    rcases List.mem_append.mp hmem with hv | hs
    · exact hnul hv
    · exact h.no_nul (List.mem_of_mem_drop hs)
  · have hcell : b[i] = s.getD i nul := h.cells i
    show (Vector.ofFn fun j : Fin size =>
      if (j : ℕ) < v.length then v.getD j nul else b[j])[(i : ℕ)] = _
    rw [Vector.getElem_ofFn, overlay]
    by_cases hi : (i : ℕ) < v.length
    · rw [if_pos hi, List.getD_append _ _ _ _ hi]
    · rw [if_neg hi, List.getD_append_right _ _ _ _ (by omega)]
      rw [List.getD_eq_getElem?_getD, List.getElem?_drop]
      have hindex : v.length + (i - v.length) = (i : ℕ) := by omega
      rw [hindex, ← List.getD_eq_getElem?_getD]
      exact hcell

end Buffers

/-! ### Histories -/

theorem overlay_eq_iff {s v : List Char} : overlay s v = v ↔ s.length ≤ v.length := by
  rw [overlay, List.append_right_eq_self, List.drop_eq_nil_iff]

/-- The last of the strings is the longest when none is shorter than one before. -/
theorem length_le_last {d : List Char} {vs : List (List Char)}
    (h : (d :: vs).Pairwise fun u v => u.length ≤ v.length) :
    ∀ u ∈ d :: vs, u.length ≤ (vs.getLastD d).length := by
  induction vs using List.reverseRecOn with
  | nil =>
    intro u hu
    rw [List.mem_singleton.mp hu]
    exact Nat.le_refl _
  | append_singleton vs v _ =>
    rw [← List.cons_append, List.pairwise_append] at h
    intro u hu
    rw [List.getLastD_concat]
    rcases List.mem_append.mp (List.cons_append ▸ hu) with hold | hnew
    · exact h.2.2 u hold v List.mem_cons_self
    · have hsame : u.length = v.length := congrArg List.length (List.mem_singleton.mp hnew)
      exact Nat.le_of_eq hsame

/-- Strings come one after the other, not with every event. After every event the
buffer holds the last of them, and `d` before the first, exactly when none is
shorter than one before it or than `d`. -/
theorem foldl_overlay_iff {ι : Type*} (f : ι → Option (List Char)) (d : List Char) (es : List ι) :
    (∀ pre, pre <+: es → (pre.filterMap f).foldl overlay d = (pre.filterMap f).getLastD d) ↔
      (d :: es.filterMap f).Pairwise fun u v => u.length ≤ v.length := by
  induction es using List.reverseRecOn with
  | nil =>
    refine iff_of_true (fun pre hpre => ?_) (List.pairwise_singleton _ _)
    rw [List.prefix_nil.mp hpre]
    rfl
  | append_singleton es e ih =>
    have hsplit : (∀ pre, pre <+: es ++ [e] →
        (pre.filterMap f).foldl overlay d = (pre.filterMap f).getLastD d) ↔
        (∀ pre, pre <+: es →
          (pre.filterMap f).foldl overlay d = (pre.filterMap f).getLastD d) ∧
        ((es ++ [e]).filterMap f).foldl overlay d = ((es ++ [e]).filterMap f).getLastD d := by
      simp only [List.prefix_concat_iff, or_imp, forall_and, forall_eq, and_comm]
    rw [hsplit, ih, List.filterMap_append]
    cases he : f e with
    | none =>
      rw [List.filterMap_cons_none he, List.filterMap_nil, List.append_nil]
      exact ⟨fun h => h.1, fun h => ⟨h, ih.mpr h es List.prefix_rfl⟩⟩
    | some v =>
      rw [List.filterMap_cons_some he, List.filterMap_nil, List.foldl_append, ← List.cons_append,
        List.pairwise_append]
      refine and_congr_right fun hsorted => ?_
      have hlast := ih.mpr hsorted es List.prefix_rfl
      rw [hlast, List.getLastD_concat, List.foldl_cons, List.foldl_nil, overlay_eq_iff]
      constructor
      · intro hle
        refine ⟨List.pairwise_singleton _ _, fun u hu w hw => ?_⟩
        rw [List.mem_singleton.mp hw]
        exact Nat.le_trans (length_le_last hsorted u hu) hle
      · rintro ⟨-, hall⟩
        exact hall _ List.getLastD_mem_cons v List.mem_cons_self

end CStrings
