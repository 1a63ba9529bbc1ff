/-
# Runs of deterministic machines

A machine reads a list of inputs, one step per input. `run` is the state it
ends in, `answers` what it answers, one answer per input, `answers?` the same
for a machine some of whose steps are undefined. The rules are the ones every
invariant proof needs once:

* `run_inv`: what every step keeps, every run keeps;
* `run_inv_of_each`: the same when the steps of the run meet a condition on
  the state they are taken in (`Each`);
* `run_hist`: a relation between the inputs read so far and the state, kept by
  every step;
* `run_rel`: a relation between two machines, kept when both read an input;
* `run?_concat`: one more step of a machine some of whose steps are undefined;
* `Takes.bind`, `Takes.foldlM_concat`: partial steps one after the other, with the
  condition under which they are taken;
* `answers?_eq_of_sim`: two machines in lock step answer alike.
-/
import Mathlib.Data.List.Induction
import Mathlib.Data.List.Infix

namespace Runs

variable {σ τ ι ο : Type*}

/-- What is said of every prefix is decided on the list of them. -/
instance decidableForallPrefix (P : List ι → Prop) [DecidablePred P] (is : List ι) :
    Decidable (∀ pre, pre <+: is → P pre) :=
  decidable_of_iff (∀ pre ∈ is.inits, P pre)
    (forall_congr' fun pre => imp_congr_left (List.mem_inits pre is))

/-- The state after the inputs `is`, from `s`. -/
def run (step : σ → ι → σ) (s : σ) (is : List ι) : σ := is.foldl step s

section Run

variable (step : σ → ι → σ)

@[simp] theorem run_nil (s : σ) : run step s [] = s := rfl

@[simp] theorem run_cons (s : σ) (i : ι) (is : List ι) :
    run step s (i :: is) = run step (step s i) is := rfl

@[simp] theorem run_append (s : σ) (is js : List ι) :
    run step s (is ++ js) = run step (run step s is) js := List.foldl_append

/-- What every step keeps, every run keeps. -/
theorem run_inv {I : σ → Prop} (hstep : ∀ s i, I s → I (step s i)) (s : σ) (is : List ι)
    (h : I s) : I (run step s is) := by
  induction is generalizing s with
  | nil => exact h
  | cons i is ih => exact ih _ (hstep s i h)

/-- A relation between two machines, kept when both read an input, holds after
both have read the same inputs. -/
theorem run_rel (step' : τ → ι → τ) {R : σ → τ → Prop}
    (hstep : ∀ s t i, R s t → R (step s i) (step' t i)) (s : σ) (t : τ) (is : List ι) (h : R s t) :
    R (run step s is) (run step' t is) := by
  induction is generalizing s t with
  | nil => exact h
  | cons i is ih => exact ih _ _ (hstep s t i h)

/-- Every step of the run meets `C` at the state it is taken in. -/
def Each (C : σ → ι → Prop) : σ → List ι → Prop
  | _, [] => True
  | s, i :: is => C s i ∧ Each C (step s i) is

instance Each.decidable {C : σ → ι → Prop} [hC : ∀ s i, Decidable (C s i)] :
    ∀ (s : σ) (is : List ι), Decidable (Each step C s is)
  | _, [] => .isTrue trivial
  | s, i :: is => @instDecidableAnd _ _ (hC s i) (Each.decidable (step s i) is)

theorem each_append {C : σ → ι → Prop} : ∀ (s : σ) (is js : List ι),
    Each step C s (is ++ js) ↔ Each step C s is ∧ Each step C (run step s is) js
  | _, [], _ => by simp [Each]
  | s, i :: is, js => by simp [Each, each_append (step s i) is js, and_assoc]

/-- A condition met at every split of the inputs is met at every step. -/
theorem each_of_forall {C : σ → ι → Prop} (is : List ι) (s : σ)
    (h : ∀ pre i post, is = pre ++ i :: post → C (run step s pre) i) : Each step C s is := by
  induction is generalizing s with
  | nil => trivial
  | cons i is ih =>
    refine ⟨h [] i is rfl, ih _ fun pre j post he => ?_⟩
    exact h (i :: pre) j post (by rw [he, List.cons_append])

theorem run_inv_of_each {I : σ → Prop} {C : σ → ι → Prop}
    (hstep : ∀ s i, I s → C s i → I (step s i)) (s : σ) (is : List ι) (h : I s)
    (hc : Each step C s is) : I (run step s is) := by
  induction is generalizing s with
  | nil => exact h
  | cons i is ih => exact ih _ (hstep s i h hc.1) hc.2

/-- A relation between what was read and the state, kept by every step. -/
theorem run_hist {H : List ι → σ → Prop} {s : σ} (h0 : H [] s)
    (hstep : ∀ pre i, H pre (run step s pre) → H (pre ++ [i]) (step (run step s pre) i))
    (is : List ι) : H is (run step s is) := by
  induction is using List.reverseRecOn with
  | nil => exact h0
  | append_singleton pre i ih => rw [run_append]; exact hstep pre i ih

/-- As `run_hist`, for inputs with a property that passes to every shorter list. -/
theorem run_hist_of {G : List ι → Prop} (hG : ∀ pre i, G (pre ++ [i]) → G pre)
    {H : List ι → σ → Prop} {s : σ} (h0 : H [] s)
    (hstep : ∀ pre i, G (pre ++ [i]) → H pre (run step s pre) →
      H (pre ++ [i]) (step (run step s pre) i))
    (is : List ι) (h : G is) : H is (run step s is) := by
  induction is using List.reverseRecOn with
  | nil => exact h0
  | append_singleton pre i ih =>
    rw [run_append]
    exact hstep pre i h (ih (hG pre i h))

end Run

section Answers

/-- The step function of a machine that also answers. -/
def next (f : σ → ι → σ × ο) : σ → ι → σ := fun s i => (f s i).1

/-- One answer per input. -/
def answers (f : σ → ι → σ × ο) : σ → List ι → List ο
  | _, [] => []
  | s, i :: is => (f s i).2 :: answers f (f s i).1 is

/-- The inputs paired with their answers. -/
def trace (f : σ → ι → σ × ο) (s : σ) (is : List ι) : List (ι × ο) := is.zip (answers f s is)

variable (f : σ → ι → σ × ο)

@[simp] theorem answers_length : ∀ (s : σ) (is : List ι), (answers f s is).length = is.length
  | _, [] => rfl
  | s, i :: is => by simp [answers, answers_length]

theorem answers_append : ∀ (s : σ) (is js : List ι),
    answers f s (is ++ js) = answers f s is ++ answers f (run (next f) s is) js
  | _, [], _ => rfl
  | s, i :: is, js => by simp [answers, answers_append _ is js, next]

@[simp] theorem trace_concat (s : σ) (is : List ι) (i : ι) :
    trace f s (is ++ [i]) = trace f s is ++ [(i, (f (run (next f) s is) i).2)] := by
  simp [trace, answers_append, answers, List.zip_append]

/-- The answers of a machine some of whose steps are undefined: `none` if the
run meets such a step. -/
def answers? (g : τ → ι → Option (τ × ο)) : τ → List ι → Option (List ο)
  | _, [] => some []
  | t, i :: is => (g t i).bind fun r => (answers? g r.1 is).map (r.2 :: ·)

/-- The state after the inputs `is`, if no step of the run is undefined. -/
def run? (g : τ → ι → Option (τ × ο)) : τ → List ι → Option τ
  | t, [] => some t
  | t, i :: is => (g t i).bind fun r => run? g r.1 is

theorem run?_append (g : τ → ι → Option (τ × ο)) : ∀ (t : τ) (is js : List ι),
    run? g t (is ++ js) = (run? g t is).bind fun t' => run? g t' js
  | _, [], _ => rfl
  | t, i :: is, js => by
    simp only [List.cons_append, run?]
    cases g t i with
    | none => rfl
    | some r => exact run?_append g r.1 is js

theorem answers?_append (g : τ → ι → Option (τ × ο)) : ∀ (t t' : τ) (is js : List ι),
    run? g t is = some t' →
      answers? g t (is ++ js) = (answers? g t is).bind fun a => (answers? g t' js).map (a ++ ·)
  | t, t', [], js, h => by
    cases h
    show answers? g t js = (answers? g t js).map fun b => [] ++ b
    cases answers? g t js <;> rfl
  | t, t', i :: is, js, h => by
    simp only [run?, Option.bind_eq_some_iff] at h
    obtain ⟨r, hr, hrun⟩ := h
    simp only [List.cons_append, answers?, hr, Option.bind_some, answers?_append g r.1 t' is js hrun]
    cases answers? g r.1 is with
    | none => rfl
    | some a =>
      simp only [Option.bind_some, Option.map_some, Option.map_map]
      rfl
theorem run?_concat (g : τ → ι → Option (τ × ο)) {t t' : τ} {is : List ι}
    (h : run? g t is = some t') (i : ι) : run? g t (is ++ [i]) = (g t' i).map Prod.fst := by
  rw [run?_append, h]
  simp only [Option.bind_some, run?]
  cases g t' i with
  | none => rfl
  | some r => rfl

/-- **Two machines in lock step.** If from related states every step of the
first that meets `C` is defined for the second, is answered alike and leads to
related states, then the second is defined and answers alike on every run all
of whose steps meet `C`. -/
theorem answers?_eq_of_sim {g : τ → ι → Option (τ × ο)} {R : σ → τ → Prop} {C : σ → ι → Prop}
    (hstep : ∀ s t i, R s t → C s i → ∃ t', g t i = some (t', (f s i).2) ∧ R (f s i).1 t') :
    ∀ (is : List ι) (s : σ) (t : τ), R s t → Each (next f) C s is →
      answers? g t is = some (answers f s is)
  | [], _, _, _, _ => rfl
  | i :: is, s, t, hR, hC => by
    obtain ⟨t', hg, hR'⟩ := hstep s t i hR hC.1
    have ih := answers?_eq_of_sim hstep is (f s i).1 t' hR' hC.2
    simp only [answers?, hg, Option.bind_some, ih, Option.map_some, answers]

end Answers

section Takes

/-- The step `o` is taken exactly when `ok` holds, and then `post` holds after it. -/
def Takes {α : Type*} (o : Option α) (ok : Prop) (post : α → Prop) : Prop :=
  (ok → ∃ a, o = some a ∧ post a) ∧ (¬ ok → o = none)

variable {α β : Type*} {o : Option α} {ok ok' : Prop} {post : α → Prop} {post' : β → Prop}

theorem takes_some {a : α} (h : post a) (hok : ok) : Takes (some a) ok post :=
  ⟨fun _ => ⟨a, rfl, h⟩, fun hn => absurd hok hn⟩

theorem takes_none (hok : ¬ ok) : Takes none ok post := ⟨fun h => absurd h hok, fun _ => rfl⟩

theorem Takes.isSome_iff (h : Takes o ok post) : o.isSome = true ↔ ok := by
  constructor
  · intro hsome
    by_contra hok
    rw [h.2 hok] at hsome
    exact Bool.noConfusion hsome
  · intro hok
    obtain ⟨a, ha, -⟩ := h.1 hok
    rw [ha]
    rfl

theorem Takes.imp {post' : α → Prop} (h : Takes o ok post) (hpost : ∀ a, post a → post' a) :
    Takes o ok post' := by
  refine ⟨fun hok => ?_, h.2⟩
  obtain ⟨a, ha, hp⟩ := h.1 hok
  exact ⟨a, ha, hpost a hp⟩

theorem Takes.bind (h : Takes o ok post) {f : α → Option β}
    (hf : ∀ a, ok → post a → Takes (f a) ok' post') : Takes (o.bind f) (ok ∧ ok') post' := by
  by_cases hok : ok
  · obtain ⟨a, rfl, ha⟩ := h.1 hok
    have hstep := hf a hok ha
    exact ⟨fun hand => hstep.1 hand.2, fun hn => hstep.2 fun hok' => hn ⟨hok, hok'⟩⟩
  · rw [h.2 hok]
    exact takes_none fun hand => hok hand.1

theorem Takes.bind_some (h : Takes o ok post) {f : α → Option β}
    (hf : ∀ a, ok → post a → ∃ b, f a = some b ∧ post' b) : Takes (o.bind f) ok post' := by
  have hbind : Takes (o.bind f) (ok ∧ True) post' := by
    refine h.bind fun a hok ha => ?_
    obtain ⟨b, hb, hpost⟩ := hf a hok ha
    rw [hb]
    exact takes_some hpost trivial
  rwa [and_true] at hbind

/-- One more round of a loop whose rounds may be undefined. -/
theorem Takes.foldlM_concat {γ : Type*} {f : α → γ → Option α} {a : α} {l : List γ} {x : γ}
    {post' : α → Prop} (h : Takes (l.foldlM f a) ok post)
    (hf : ∀ b, ok → post b → Takes (f b x) ok' post') :
    Takes ((l ++ [x]).foldlM f a) (ok ∧ ok') post' := by
  have hone : (l ++ [x]).foldlM f a = (l.foldlM f a).bind fun b => f b x := by
    rw [List.foldlM_append]
    exact congrArg (Option.bind _) (funext fun b => Option.bind_fun_some _)
  rw [hone]
  exact h.bind hf

/-- A loop whose rounds are defined where `I` holds and keep it. -/
theorem exists_foldlM {γ : Type*} {I : α → Prop} {f : α → γ → Option α} :
    ∀ (l : List γ) (a : α), I a → (∀ x ∈ l, ∀ a, I a → ∃ b, f a x = some b ∧ I b) →
      ∃ b, l.foldlM f a = some b ∧ I b
  | [], a, ha, _ => ⟨a, rfl, ha⟩
  | x :: l, a, ha, hf => by
    obtain ⟨b, hb, hI⟩ := hf x List.mem_cons_self a ha
    obtain ⟨c, hc, hI'⟩ := exists_foldlM l b hI fun y hy => hf y (List.mem_cons_of_mem x hy)
    refine ⟨c, ?_, hI'⟩
    rw [List.foldlM_cons, hb]
    exact hc

end Takes

end Runs
