/-
# Queues served in turn

Several queues are emptied round by round: a round takes up to `c` items of
each queue, one queue after the other. `rounds c n qs` is what `n` rounds take.
It is the `k`-th turns of all queues, for every `k` below `n` (`rounds_eq`), so
once the queues are empty every item has been taken once (`rounds_perm`), those
of each queue in its order (`sublist_rounds`), and a relation that holds along
every queue holds along what was taken if and only if it holds from every turn
to the turns served after it (`pairwise_rounds_iff`).
-/
import Mathlib.Data.List.Perm.Basic

namespace RoundRobin

variable {α : Type*} (c : ℕ)

/-- What a round takes. -/
def firstRound (qs : List (List α)) : List α := qs.flatMap (List.take c)

/-- What a round leaves. -/
def afterRound (qs : List (List α)) : List (List α) := qs.map (List.drop c)

/-- What `n` rounds take. -/
def rounds : ℕ → List (List α) → List α
  | 0, _ => []
  | n + 1, qs => firstRound c qs ++ rounds n (afterRound c qs)

/-- The items of a queue that are taken in round `k`. -/
def turn (k : ℕ) (q : List α) : List α := (q.drop (c * k)).take c

/-- `n` rounds empty the queues. -/
def Served (n : ℕ) (qs : List (List α)) : Prop := ∀ q ∈ qs, q.length ≤ c * n

/-- `r` holds from each turn to the turns served after it. -/
structure InTurn (r : α → α → Prop) (qs : List (List α)) : Prop where
  sameRound : ∀ k, qs.Pairwise fun q q' => ∀ x ∈ turn c k q, ∀ y ∈ turn c k q', r x y
  laterRound : ∀ k k', k < k' → ∀ q ∈ qs, ∀ q' ∈ qs, ∀ x ∈ turn c k q, ∀ y ∈ turn c k' q', r x y

variable {c} {n : ℕ} {qs : List (List α)} {r : α → α → Prop}

theorem turn_drop (k : ℕ) (q : List α) : turn c k (q.drop c) = turn c (k + 1) q := by
  unfold turn
  rw [List.drop_drop, Nat.mul_succ, Nat.add_comm]

theorem turn_sublist (k : ℕ) (q : List α) : (turn c k q).Sublist q :=
  (List.take_sublist c _).trans (List.drop_sublist _ q)

theorem turn_eq_nil {k : ℕ} {q : List α} (h : q.length ≤ c * n) (hk : n ≤ k) : turn c k q = [] := by
  have hle : q.length ≤ c * k := Nat.le_trans h (Nat.mul_le_mul_left c hk)
  rw [turn, List.drop_eq_nil_of_le hle, List.take_nil]

theorem Served.afterRound (h : Served c (n + 1) qs) : Served c n (afterRound c qs) := by
  intro q hq
  obtain ⟨q', hq', rfl⟩ := List.mem_map.mp hq
  have hle : q'.length ≤ c * n + c := h q' hq'
  rw [List.length_drop]
  omega

theorem rounds_eq (n : ℕ) (qs : List (List α)) :
    rounds c n qs = (List.range n).flatMap fun k => qs.flatMap (turn c k) := by
  induction n generalizing qs with
  | zero => rfl
  | succ n ih =>
    have hfirst : qs.flatMap (turn c 0) = firstRound c qs := rfl
    have hlater : ∀ k, (afterRound c qs).flatMap (turn c k) = qs.flatMap (turn c (k + 1)) := by
      intro k
      rw [afterRound, List.flatMap_map]
      exact congrArg qs.flatMap (funext fun q => turn_drop k q)
    rw [rounds, ih, List.range_succ_eq_map, List.flatMap_cons, List.flatMap_map, hfirst]
    simp only [hlater]

/-- Every item is taken once. -/
theorem rounds_perm (h : Served c n qs) : (rounds c n qs).Perm qs.flatten := by
  induction n generalizing qs with
  | zero =>
    have hnil : qs.flatten = [] := by
      rw [List.flatten_eq_nil_iff]
      intro q hq
      exact List.eq_nil_of_length_eq_zero (Nat.le_zero.mp (h q hq))
    rw [hnil]
    exact .refl _
  | succ n ih =>
    have hrest : (rounds c n (afterRound c qs)).Perm (qs.flatMap (List.drop c)) := ih h.afterRound
    have hsplit : (qs.flatMap (List.take c) ++ qs.flatMap (List.drop c)).Perm
        (qs.flatMap fun q => q.take c ++ q.drop c) := List.flatMap_append_perm qs _ _
    have hwhole : (qs.flatMap fun q => q.take c ++ q.drop c) = qs.flatten := by
      simp only [List.take_append_drop]
      exact List.flatMap_id'
    rw [hwhole] at hsplit
    exact (hrest.append_left (firstRound c qs)).trans hsplit

/-- Each queue is taken in its order. -/
theorem sublist_rounds (h : Served c n qs) {q : List α} (hq : q ∈ qs) : q.Sublist (rounds c n qs) := by
  induction n generalizing qs q with
  | zero =>
    have hnil : q = [] := List.eq_nil_of_length_eq_zero (Nat.le_zero.mp (h q hq))
    rw [hnil]
    exact List.nil_sublist _
  | succ n ih =>
    have hdrop : (q.drop c).Sublist (rounds c n (afterRound c qs)) := ih h.afterRound (List.mem_map_of_mem hq)
    have htake : (q.take c).Sublist (firstRound c qs) := by
      obtain ⟨before, after, rfl⟩ := List.append_of_mem hq
      rw [firstRound, List.flatMap_append, List.flatMap_cons]
      exact (List.sublist_append_left _ _).trans (List.sublist_append_right _ _)
    have happend := htake.append hdrop
    rwa [List.take_append_drop] at happend

/-- **When what is taken is in order.** A relation along every queue holds along
what is taken if and only if it holds from turn to turn. -/
theorem pairwise_rounds_iff (hqs : ∀ q ∈ qs, q.Pairwise r) (h : Served c n qs) :
    (rounds c n qs).Pairwise r ↔ InTurn c r qs := by
  rw [rounds_eq, List.pairwise_flatMap]
  constructor
  · rintro ⟨hrounds, hlater⟩
    refine ⟨fun k => ?_, fun k k' hk q hq q' hq' x hx y hy => ?_⟩
    · by_cases hkn : k < n
      · exact (List.pairwise_flatMap.mp (hrounds k (List.mem_range.mpr hkn))).2
      · refine List.pairwise_of_forall_mem_list fun q hq q' hq' x hx => ?_
        rw [turn_eq_nil (h q hq) (by omega)] at hx
        exact nomatch hx
    · by_cases hkn : k' < n
      · have hlt := List.pairwise_iff_getElem.mp hlater k k' (by simp; omega) (by simpa) hk
        rw [List.getElem_range, List.getElem_range] at hlt
        exact hlt x (List.mem_flatMap.mpr ⟨q, hq, hx⟩) y (List.mem_flatMap.mpr ⟨q', hq', hy⟩)
      · rw [turn_eq_nil (h q' hq') (by omega)] at hy
        exact nomatch hy
  · intro hturn
    refine ⟨fun k _ => ?_, ?_⟩
    · rw [List.pairwise_flatMap]
      exact ⟨fun q hq => (hqs q hq).sublist (turn_sublist k q), hturn.sameRound k⟩
    · refine List.pairwise_lt_range.imp fun {k k'} hk x hx y hy => ?_
      obtain ⟨q, hq, hxq⟩ := List.mem_flatMap.mp hx
      obtain ⟨q', hq', hyq'⟩ := List.mem_flatMap.mp hy
      exact hturn.laterRound k k' hk q hq q' hq' x hxq y hyq'

end RoundRobin
