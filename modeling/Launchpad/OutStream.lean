/-
# Output streams that fill up

A stream takes so many items, and the write that finds too little room for its
own fails: what there is room for is written, and later writes are ignored. So
whatever the chunks, what has been written is the start of all that was to be,
and the stream is still good if and only if that is everything (`foldl_write`).
-/
import Mathlib.Data.List.Basic
import Mathlib.Tactic.SplitIfs

/-- `room` is how many items the stream takes before its writes fail. -/
structure OutStream (α : Type*) where
  room : ℕ
  written : List α := []
  good : Bool := true

namespace OutStream

variable {α : Type*} {s : OutStream α}

def write (s : OutStream α) (xs : List α) : OutStream α :=
  if s.good = false then s
  else if xs.length ≤ s.room then
    { s with room := s.room - xs.length, written := s.written ++ xs }
  else { room := 0, written := s.written ++ xs.take s.room, good := false }

theorem write_of_not_good (h : s.good = false) (xs : List α) : s.write xs = s := if_pos h

theorem foldl_write_of_not_good (h : s.good = false) (chunks : List (List α)) :
    chunks.foldl write s = s := by
  induction chunks with
  | nil => rfl
  | cons xs chunks ih => rw [List.foldl_cons, write_of_not_good h, ih]

/-- Chunks written one after the other: what fits of them is written, and the
stream is good if all of it does. -/
theorem foldl_write (h : s.good = true) (chunks : List (List α)) :
    (chunks.foldl write s).written = s.written ++ chunks.flatten.take s.room ∧
      ((chunks.foldl write s).good = true ↔ chunks.flatten.length ≤ s.room) := by
  induction chunks generalizing s with
  | nil => simp [h]
  | cons xs chunks ih =>
    rw [List.foldl_cons, List.flatten_cons, List.length_append]
    by_cases hfits : xs.length ≤ s.room
    · have hwrite : s.write xs =
          { s with room := s.room - xs.length, written := s.written ++ xs } := by
        rw [write, if_neg (by simp [h]), if_pos hfits]
      obtain ⟨hwritten, hgood⟩ := ih (s := s.write xs) (by rw [hwrite]; exact h)
      rw [hwrite] at hwritten hgood ⊢
      refine ⟨?_, ?_⟩
      · rw [hwritten, List.take_append, List.take_of_length_le hfits, List.append_assoc]
      · rw [hgood]
        show chunks.flatten.length ≤ s.room - xs.length ↔ _
        omega
    · have hwrite : s.write xs =
          { room := 0, written := s.written ++ xs.take s.room, good := false } := by
        rw [write, if_neg (by simp [h]), if_neg hfits]
      have hrest : s.room - xs.length = 0 := by omega
      rw [hwrite, foldl_write_of_not_good rfl, List.take_append, hrest, List.take_zero,
        List.append_nil]
      exact ⟨rfl, iff_of_false Bool.false_ne_true (by omega)⟩

end OutStream
