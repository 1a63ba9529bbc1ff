/-
# Switches in a history

Some inputs switch a machine on, some switch it off. It is live if nothing has
switched it off since it was on, at the start or by an input. One more input makes
it live if it switches on, and leaves it live if it does not switch off
(`live_concat_iff`).
-/
import Mathlib.Data.List.Basic
import Mathlib.Data.List.Induction

namespace Switches

variable {ι : Type*}

/-- On at the start or switched on, and not switched off since. -/
def Live (start : Prop) (on off : ι → Prop) (is : List ι) : Prop :=
  (start ∧ ∀ i ∈ is, ¬ off i) ∨
    ∃ pre i post, is = pre ++ i :: post ∧ on i ∧ ∀ j ∈ post, ¬ off j

variable {start : Prop} {on off : ι → Prop} {is : List ι} {i : ι}

theorem live_nil : Live start on off [] ↔ start := by
  constructor
  · rintro (⟨hstart, -⟩ | ⟨pre, i, post, his, -⟩)
    · exact hstart
    · simp at his
  · exact fun hstart => .inl ⟨hstart, List.forall_mem_nil _⟩

theorem live_concat_iff (is : List ι) (i : ι) :
    Live start on off (is ++ [i]) ↔ on i ∨ Live start on off is ∧ ¬ off i := by
  constructor
  · rintro (⟨hstart, hnone⟩ | ⟨pre, j, post, his, hon, hnone⟩)
    · rw [List.forall_mem_append, List.forall_mem_singleton] at hnone
      exact .inr ⟨.inl ⟨hstart, hnone.1⟩, hnone.2⟩
    · rcases List.eq_nil_or_concat' post with rfl | ⟨post, k, rfl⟩
      · obtain ⟨-, hij⟩ := List.append_inj' his rfl
        exact .inl (List.singleton_inj.mp hij ▸ hon)
      · rw [List.forall_mem_append, List.forall_mem_singleton] at hnone
        rw [← List.cons_append, ← List.append_assoc] at his
        obtain ⟨rfl, hik⟩ := List.append_inj' his rfl
        exact .inr ⟨.inr ⟨pre, j, post, rfl, hon, hnone.1⟩, List.singleton_inj.mp hik ▸ hnone.2⟩
  · rintro (hon | ⟨⟨hstart, hnone⟩ | ⟨pre, j, post, rfl, hon, hnone⟩, hoff⟩)
    · exact .inr ⟨is, i, [], rfl, hon, List.forall_mem_nil _⟩
    · refine .inl ⟨hstart, ?_⟩
      rw [List.forall_mem_append, List.forall_mem_singleton]
      exact ⟨hnone, hoff⟩
    · refine .inr ⟨pre, j, post ++ [i], by simp, hon, ?_⟩
      rw [List.forall_mem_append, List.forall_mem_singleton]
      exact ⟨hnone, hoff⟩

/-- Where nothing switches on, live is not switched off. -/
theorem live_of_never (hon : ∀ i, ¬ on i) : Live start on off is ↔ start ∧ ∀ i ∈ is, ¬ off i := by
  refine or_iff_left ?_
  rintro ⟨-, i, -, -, hi, -⟩
  exact hon i hi

/-- Switched off and live again, it has been switched on since. -/
theorem live_of_off (hoff : ∃ i ∈ is, off i) :
    Live start on off is ↔ ∃ pre i post, is = pre ++ i :: post ∧ on i ∧ ∀ j ∈ post, ¬ off j := by
  refine or_iff_right ?_
  rintro ⟨-, hnone⟩
  obtain ⟨i, hi, h⟩ := hoff
  exact hnone i hi h

end Switches
