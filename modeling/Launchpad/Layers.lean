/-
# Layers over one another

A store gives every key a value, and a layer gives some keys a value and leaves
the others. After some layers a key has what the last layer that gives it one
gives it (`get_foldl`). So two groups of layers may be exchanged under a third
exactly when no key is disputed between them that the third does not give
(`get_exchange_iff`).

Layers that append to a list instead may be exchanged exactly when both groups
append repetitions of one list (`append_comm_iff`).
-/
import Mathlib.Data.List.Sort
import Mathlib.Order.Defs.LinearOrder

namespace Layers

section Store

variable {σ γ κ ν : Type*} (given : γ → κ → Option ν)

/-- What the last layer that gives the key a value gives it. -/
def lastGiven : List γ → κ → Option ν
  | [], _ => none
  | c :: cs, k => (lastGiven cs k).or (given c k)

theorem lastGiven_append (k : κ) : ∀ cs cs' : List γ,
    lastGiven given (cs ++ cs') k = (lastGiven given cs' k).or (lastGiven given cs k)
  | [], cs' => (Option.or_none).symm
  | c :: cs, cs' => by rw [List.cons_append, lastGiven, lastGiven_append k cs cs', lastGiven, Option.or_assoc]

variable {given} (get : σ → κ → ν) {step : σ → γ → σ}

theorem get_foldl (hstep : ∀ s c k, get (step s c) k = (given c k).getD (get s k)) (k : κ) :
    ∀ (cs : List γ) (s : σ), get (cs.foldl step s) k = (lastGiven given cs k).getD (get s k)
  | [], _ => rfl
  | c :: cs, s => by
    rw [List.foldl_cons, get_foldl hstep k cs, hstep, lastGiven]
    cases lastGiven given cs k <;> rfl

variable (given) in
/-- The groups `as` and `bs` do not give the key different values, or `cs` over
them gives it one. -/
def Undisputed (as bs cs : List γ) (k : κ) : Prop :=
  lastGiven given as k = none ∨ lastGiven given bs k = none ∨
    lastGiven given as k = lastGiven given bs k ∨ lastGiven given cs k ≠ none

theorem getD_or_comm_iff (a b c : Option ν) (d : ν) :
    (c.or (a.or b)).getD d = (c.or (b.or a)).getD d ↔ a = none ∨ b = none ∨ a = b ∨ c ≠ none := by
  cases c with
  | some c => simp
  | none => cases a <;> cases b <;> simp

/-- When two groups of layers may be exchanged under a third. -/
theorem get_exchange_iff (hstep : ∀ s c k, get (step s c) k = (given c k).getD (get s k))
    (as bs cs : List γ) (s : σ) (k : κ) :
    get ((bs ++ (as ++ cs)).foldl step s) k = get ((as ++ (bs ++ cs)).foldl step s) k ↔
      Undisputed given as bs cs k := by
  rw [get_foldl get hstep, get_foldl get hstep]
  simp only [lastGiven_append, Option.or_assoc]
  exact getD_or_comm_iff _ _ _ _

end Store

/-! ### Lists that commute -/

section Repeats

variable {α : Type*}

/-- Both lists are repetitions of one. -/
def Repeats (xs ys : List α) : Prop :=
  ∃ (zs : List α) (n m : ℕ), xs = (List.replicate n zs).flatten ∧ ys = (List.replicate m zs).flatten

theorem Repeats.symm {xs ys : List α} (h : Repeats xs ys) : Repeats ys xs := by
  obtain ⟨zs, n, m, hxs, hys⟩ := h
  exact ⟨zs, m, n, hys, hxs⟩

theorem Repeats.append_right {xs ys : List α} (h : Repeats xs ys) : Repeats xs (xs ++ ys) := by
  obtain ⟨zs, n, m, rfl, rfl⟩ := h
  refine ⟨zs, n, n + m, rfl, ?_⟩
  rw [← List.flatten_append, List.replicate_append_replicate]

/-- The longer of two lists that commute starts with the shorter, and the rest
commutes with it. -/
theorem repeats_of_append_comm : ∀ (n : ℕ) (xs ys : List α), xs.length + ys.length ≤ n →
    xs ++ ys = ys ++ xs → Repeats xs ys := by
  intro n
  induction n with
  | zero =>
    intro xs ys hn _
    have hxs : xs = [] := List.length_eq_zero_iff.mp (by omega)
    have hys : ys = [] := List.length_eq_zero_iff.mp (by omega)
    exact ⟨[], 0, 0, hxs, hys⟩
  | succ n ih =>
    intro xs ys hn h
    by_cases hxs : xs = []
    · exact ⟨ys, 0, 1, hxs, by simp⟩
    by_cases hys : ys = []
    · exact ⟨xs, 1, 0, by simp, hys⟩
    have hx : 0 < xs.length := List.length_pos_iff.mpr hxs
    have hy : 0 < ys.length := List.length_pos_iff.mpr hys
    rcases List.append_eq_append_iff.mp h with ⟨rest, hleft, hright⟩ | ⟨rest, hleft, hright⟩
    · have hlength := congrArg List.length hleft
      rw [List.length_append] at hlength
      rw [hleft]
      exact (ih xs rest (by omega) (hleft.symm.trans hright)).append_right
    · have hlength := congrArg List.length hleft
      rw [List.length_append] at hlength
      rw [hleft]
      exact (ih ys rest (by omega) (hleft.symm.trans hright)).append_right.symm

/-- Two lists commute exactly when they repeat one. -/
theorem append_comm_iff {xs ys : List α} : xs ++ ys = ys ++ xs ↔ Repeats xs ys := by
  constructor
  · exact repeats_of_append_comm _ xs ys le_rfl
  · rintro ⟨zs, n, m, rfl, rfl⟩
    rw [← List.flatten_append, ← List.flatten_append, List.replicate_append_replicate,
      List.replicate_append_replicate, Nat.add_comm]

end Repeats

/-! ### A sorted list around an element -/

section Sorted

variable {α : Type*} [LinearOrder α] [DecidableEq α] [DecidableLT α] (a : α)

theorem filter_eq_nil_of_le {l : List α} {x : α} (hl : ∀ y ∈ l, x ≤ y) (h : a ≤ x) :
    l.filter (· < a) = [] := by
  apply List.filter_eq_nil_iff.mpr
  intro y hy
  simpa using h.trans (hl y hy)

/-- What is below an element, what equals it, what is above it. -/
theorem sorted_split : ∀ l : List α, l.Pairwise (· ≤ ·) →
    l = l.filter (· < a) ++ (l.filter (· = a) ++ l.filter (a < ·))
  | [], _ => rfl
  | x :: l, h => by
    rw [List.pairwise_cons] at h
    have ih := sorted_split l h.2
    rcases lt_trichotomy x a with hlt | rfl | hgt
    · simp only [List.filter_cons, hlt, hlt.ne, hlt.asymm, decide_true, decide_false, if_true,
        Bool.false_eq_true, if_false, List.cons_append]
      exact congrArg (x :: ·) ih
    · rw [filter_eq_nil_of_le x h.1 le_rfl, List.nil_append] at ih
      simp only [List.filter_cons, lt_self_iff_false, decide_true, decide_false, if_true,
        Bool.false_eq_true, if_false, filter_eq_nil_of_le x h.1 le_rfl, List.nil_append,
        List.cons_append]
      exact congrArg (x :: ·) ih
    · have hequal : l.filter (· = a) = [] := by
        apply List.filter_eq_nil_iff.mpr
        intro y hy
        simpa using (hgt.trans_le (h.1 y hy)).ne'
      rw [filter_eq_nil_of_le a h.1 hgt.le, hequal, List.nil_append, List.nil_append] at ih
      simp only [List.filter_cons, hgt, hgt.ne', hgt.asymm, decide_true, decide_false, if_true,
        Bool.false_eq_true, if_false, filter_eq_nil_of_le a h.1 hgt.le, hequal, List.nil_append]
      exact congrArg (x :: ·) ih

theorem sorted_filter_ne {l : List α} (h : l.Pairwise (· ≤ ·)) :
    l.filter (· ≠ a) = l.filter (· < a) ++ l.filter (a < ·) := by
  have hsplit := congrArg (List.filter (· ≠ a)) (sorted_split a l h)
  rw [List.filter_append, List.filter_append, List.filter_filter, List.filter_filter,
    List.filter_filter] at hsplit
  rw [hsplit]
  have hbelow : l.filter (fun x => decide (x ≠ a) && decide (x < a)) = l.filter (· < a) := by
    apply List.filter_congr
    intro x _
    by_cases hx : x < a
    · simp [hx, hx.ne]
    · simp [hx]
  have hequal : l.filter (fun x => decide (x ≠ a) && decide (x = a)) = [] := by simp
  have habove : l.filter (fun x => decide (x ≠ a) && decide (a < x)) = l.filter (a < ·) := by
    apply List.filter_congr
    intro x _
    by_cases hx : a < x
    · simp [hx, hx.ne']
    · simp [hx]
  rw [hbelow, hequal, habove, List.nil_append]

end Sorted
end Layers
