/-
# Pairs entered in two maps

Pairs are entered one after the other, each in a map from its left side to its
right side and in one back. A later pair takes the place of an earlier one in
either map, and not always in both: the maps stay inverse to each other exactly
when any two pairs agree on both sides or on none (`inverse_prefixes_iff`).
-/
import Mathlib.Data.List.Induction
import Mathlib.Data.List.Pairwise

namespace Pairings

variable {α β : Type*} [DecidableEq α] [DecidableEq β]

/-- The map from left to right after the pairs. -/
def right (ps : List (α × β)) (a : α) : Option β := (ps.reverse.find? fun p => p.1 = a).map Prod.snd

/-- The map from right to left. -/
def left (ps : List (α × β)) (b : β) : Option α := (ps.reverse.find? fun p => p.2 = b).map Prod.fst

def Inverse (ps : List (α × β)) : Prop := ∀ a b, right ps a = some b ↔ left ps b = some a

/-- Two pairs agree on both sides or on none. -/
def Agree (p q : α × β) : Prop := p.1 = q.1 ↔ p.2 = q.2

instance (p q : α × β) : Decidable (Agree p q) := inferInstanceAs (Decidable (_ ↔ _))

variable {ps : List (α × β)} {a : α} {b : β}

omit [DecidableEq β] in
theorem right_concat (ps : List (α × β)) (p : α × β) (a : α) :
    right (ps ++ [p]) a = if a = p.1 then some p.2 else right ps a := by
  unfold right
  rw [List.reverse_concat, List.find?_cons]
  by_cases h : a = p.1
  · simp [h]
  · simp [h, Ne.symm h]

omit [DecidableEq α] in
theorem left_concat (ps : List (α × β)) (p : α × β) (b : β) :
    left (ps ++ [p]) b = if b = p.2 then some p.1 else left ps b := by
  unfold left
  rw [List.reverse_concat, List.find?_cons]
  by_cases h : b = p.2
  · simp [h]
  · simp [h, Ne.symm h]

/-- Pairs that agree are all in both maps. -/
theorem mem_iff (h : ps.Pairwise Agree) (a : α) (b : β) :
    (right ps a = some b ↔ (a, b) ∈ ps) ∧ (left ps b = some a ↔ (a, b) ∈ ps) := by
  induction ps using List.reverseRecOn with
  | nil => exact ⟨iff_of_false nofun nofun, iff_of_false nofun nofun⟩
  | append_singleton ps p ih =>
    obtain ⟨hold, -, hnew⟩ := List.pairwise_append.mp h
    obtain ⟨hright, hleft⟩ := ih hold
    have hlast : ∀ q ∈ ps, Agree q p := fun q hq => hnew q hq p List.mem_cons_self
    have hmem : (a, b) ∈ ps ++ [p] ↔ (a, b) ∈ ps ∨ a = p.1 ∧ b = p.2 := by
      rw [List.mem_append, List.mem_singleton, Prod.ext_iff]
    rw [right_concat, left_concat, hmem]
    constructor
    · by_cases ha : a = p.1
      · rw [if_pos ha, Option.some.injEq, eq_comm]
        refine ⟨fun hb => .inr ⟨ha, hb⟩, fun hor => ?_⟩
        rcases hor with hin | hin
        · exact (hlast _ hin).mp ha
        · exact hin.2
      · rw [if_neg ha, hright, or_iff_left fun hin => ha hin.1]
    · by_cases hb : b = p.2
      · rw [if_pos hb, Option.some.injEq, eq_comm]
        refine ⟨fun ha => .inr ⟨ha, hb⟩, fun hor => ?_⟩
        rcases hor with hin | hin
        · exact (hlast _ hin).mpr hb
        · exact hin.1
      · rw [if_neg hb, hleft, or_iff_left fun hin => hb hin.2]

theorem inverse_of_agree (h : ps.Pairwise Agree) : Inverse ps := fun a b =>
  (mem_iff h a b).1.trans (mem_iff h a b).2.symm

/-- One more pair: it agrees with those before if the maps are still inverse. -/
theorem agree_of_inverse (h : ps.Pairwise Agree) {p : α × β} (hinv : Inverse (ps ++ [p])) :
    ∀ q ∈ ps, Agree q p := by
  intro q hq
  obtain ⟨hright, hleft⟩ := mem_iff h q.1 q.2
  constructor
  · intro ha
    by_contra hb
    have hkept : left (ps ++ [p]) q.2 = some q.1 := by
      rw [left_concat, if_neg hb]
      exact hleft.mpr hq
    have hback := (hinv q.1 q.2).mpr hkept
    rw [right_concat, if_pos ha] at hback
    exact hb (Option.some.inj hback).symm
  · intro hb
    by_contra ha
    have hkept : right (ps ++ [p]) q.1 = some q.2 := by
      rw [right_concat, if_neg ha]
      exact hright.mpr hq
    have hback := (hinv q.1 q.2).mp hkept
    rw [left_concat, if_pos hb] at hback
    exact ha (Option.some.inj hback).symm

/-- From pairs that agree on: after every further pair the maps are inverse to each
other exactly when all the pairs agree. -/
theorem inverse_prefixes_iff (h : ps.Pairwise Agree) (qs : List (α × β)) :
    (∀ pre, pre <+: qs → Inverse (ps ++ pre)) ↔ (ps ++ qs).Pairwise Agree := by
  constructor
  · intro hinv
    induction qs using List.reverseRecOn with
    | nil => rwa [List.append_nil]
    | append_singleton qs q ih =>
      have hagree := ih fun pre hpre => hinv pre (hpre.trans (List.prefix_append _ _))
      have hlast := hinv _ List.prefix_rfl
      rw [← List.append_assoc] at hlast ⊢
      rw [List.pairwise_append]
      refine ⟨hagree, List.pairwise_singleton _ _, fun p hp r hr => ?_⟩
      rw [List.mem_singleton.mp hr]
      exact agree_of_inverse hagree hlast p hp
  · rintro hagree pre ⟨post, rfl⟩
    rw [← List.append_assoc] at hagree
    exact inverse_of_agree (List.pairwise_append.mp hagree).1

end Pairings
