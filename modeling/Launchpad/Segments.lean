/-
# Segments of a history

A machine that reads a history and acts on some stretches of it: `Segmented P es ks`
says that `ks` is what disjoint segments of `es` stand for, in order, where `P before
seg k` says that `seg`, read after `before`, stands for `k`. The rest of the history
stands for nothing.

`Advance` is what one input may do to a machine inside of a segment or outside of all of
them; `inside_run` and `segmented_run` are what a whole run does then.
-/
import Launchpad.Runs

namespace Segments

variable {σ ι κ : Type*}

/-- The list `ks` is what disjoint segments of the history stand for, in order. -/
inductive Segmented (P : List ι → List ι → κ → Prop) : List ι → List κ → Prop
  | nil : Segmented P [] []
  | skip {es ks} (e : ι) : Segmented P es ks → Segmented P (es ++ [e]) ks
  | segment {es seg ks k} : Segmented P es ks → P es seg k → Segmented P (es ++ seg) (ks ++ [k])

variable {P : List ι → List ι → κ → Prop}

theorem Segmented.skips {es : List ι} {ks : List κ} (h : Segmented P es ks) (es' : List ι) :
    Segmented P (es ++ es') ks := by
  induction es' using List.reverseRecOn with
  | nil =>
    rw [List.append_nil]
    exact h
  | append_singleton es' e ih =>
    rw [← List.append_assoc]
    exact ih.skip e

/-- What comes of one more input, after `before` and the part `seg` of a segment; outside
of all segments `seg` is empty. `O before seg s` is that the machine is there in the state
`s`, `R s ks` that it has acted on `ks`. -/
inductive Advance (P : List ι → List ι → κ → Prop) (O : List ι → List ι → σ → Prop)
    (R : σ → List κ → Prop) (before seg : List ι) (i : ι) (ks : List κ) (s : σ) : Prop
  | goOn (inside : O before (seg ++ [i]) s) (acted : R s ks)
  | start (inside : O (before ++ seg) [i] s) (acted : R s ks)
  | leave (outside : O (before ++ seg ++ [i]) [] s) (acted : R s ks)
  | complete (k : κ) (segment : P before (seg ++ [i]) k) (outside : O (before ++ seg ++ [i]) [] s)
      (acted : R s (ks ++ [k]))

variable {step : σ → ι → σ} {O : List ι → List ι → σ → Prop} {R : σ → List κ → Prop} {s : σ}

/-- Where a machine is that every input advances. -/
theorem inside_run (h0 : O [] [] s) (hR : R s [])
    (hstep : ∀ before seg i ks s, O before seg s → R s ks →
      Advance P O R before seg i ks (step s i))
    (is : List ι) : ∃ before seg ks, is = before ++ seg ∧ Segmented P before ks ∧
      O before seg (Runs.run step s is) ∧ R (Runs.run step s is) ks := by
  refine Runs.run_hist step (s := s)
    (H := fun is s => ∃ before seg ks, is = before ++ seg ∧ Segmented P before ks ∧
      O before seg s ∧ R s ks)
    ⟨[], [], [], rfl, .nil, h0, hR⟩ ?_ is
  intro pre i hpre
  obtain ⟨before, seg, ks, rfl, hks, hO, hacted⟩ := hpre
  cases hstep before seg i ks _ hO hacted with
  | goOn inside acted =>
    exact ⟨before, seg ++ [i], ks, List.append_assoc .., hks, inside, acted⟩
  | start inside acted =>
    exact ⟨before ++ seg, [i], ks, rfl, hks.skips seg, inside, acted⟩
  | leave outside acted =>
    refine ⟨before ++ seg ++ [i], [], ks, (List.append_nil _).symm, ?_, outside, acted⟩
    exact (hks.skips seg).skip i
  | complete k segment outside acted =>
    refine ⟨before ++ seg ++ [i], [], ks ++ [k], (List.append_nil _).symm, ?_, outside, acted⟩
    rw [List.append_assoc]
    exact hks.segment segment

/-- **A machine acts on segments.** If every input advances the machine, it has acted on
disjoint segments of what it has read, in order. -/
theorem segmented_run (h0 : O [] [] s) (hR : R s [])
    (hstep : ∀ before seg i ks s, O before seg s → R s ks →
      Advance P O R before seg i ks (step s i))
    (is : List ι) : ∃ ks, Segmented P is ks ∧ R (Runs.run step s is) ks := by
  obtain ⟨before, seg, ks, rfl, hks, -, hacted⟩ := inside_run h0 hR hstep is
  exact ⟨ks, hks.skips seg, hacted⟩

end Segments
