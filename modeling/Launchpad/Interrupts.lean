/-
# Threads and their interrupts

A thread is cut at its accesses to what it shares with an interrupt handler: a
statement reads, writes and makes calls, and what it read decides how the thread
goes on. An interrupt may come before any statement; the handler then runs to
its end. `interrupted` is the thread under a list of interrupts that are due,
one flag for each statement, and `exec` the thread left alone.

Where no interrupt is taken the two agree (`interrupted_of_masked`); an interrupt
that is taken is the handler and the rest of the thread (`interrupted_true`),
and one that is not taken is put off to the next statement
(`interrupted_false`).
-/

namespace Interrupts

/-- Statements one after the other; a statement may be undefined. -/
inductive Thread (σ ο ℓ α : Type) : Type 1
  | done (a : α)
  | stmt {β : Type} (line : ℓ) (f : σ → Option (β × σ × List ο)) (next : β → Thread σ ο ℓ α)

namespace Thread

variable {σ ο ℓ α β : Type}

/-- One thread after the other. -/
def bind : Thread σ ο ℓ α → (α → Thread σ ο ℓ β) → Thread σ ο ℓ β
  | .done a, g => g a
  | .stmt line f next, g => .stmt line f fun b => (next b).bind g

instance : Monad (Thread σ ο ℓ) where
  pure := .done
  bind := .bind

/-- A statement that writes. -/
def assign (line : ℓ) (f : σ → σ) : Thread σ ο ℓ Unit :=
  .stmt line (fun s => some ((), f s, [])) .done

/-- A statement that reads. -/
def read (line : ℓ) (g : σ → α) : Thread σ ο ℓ α :=
  .stmt line (fun s => some (g s, s, [])) .done

/-- A statement that calls. -/
def call (line : ℓ) (f : σ → σ) (calls : List ο) : Thread σ ο ℓ Unit :=
  .stmt line (fun s => some ((), f s, calls)) .done

/-- A statement that may be undefined. -/
def attempt (line : ℓ) (f : σ → Option σ) : Thread σ ο ℓ Unit :=
  .stmt line (fun s => (f s).map fun s' => ((), s', [])) .done

/-- The thread left alone: its result, the state it ends in and its calls. -/
def exec : Thread σ ο ℓ α → σ → Option (α × σ × List ο)
  | .done a, s => some (a, s, [])
  | .stmt _ f next, s =>
    (f s).bind fun r => ((next r.1).exec r.2.1).map fun q => (q.1, q.2.1, r.2.2 ++ q.2.2)

/-- Every statement of the thread keeps `M`. -/
def Keeps (M : σ → Prop) : Thread σ ο ℓ α → Prop
  | .done _ => True
  | .stmt _ f next => (∀ s r, M s → f s = some r → M r.2.1) ∧ ∀ b, (next b).Keeps M

/-! ### Statement by statement -/

theorem assign_bind (line : ℓ) (f : σ → σ) (g : Unit → Thread σ ο ℓ β) :
    (assign line f >>= g) = .stmt line (fun s => some ((), f s, [])) g := rfl

theorem read_bind (line : ℓ) (v : σ → α) (g : α → Thread σ ο ℓ β) :
    (read line v >>= g) = .stmt line (fun s => some (v s, s, [])) g := rfl

theorem call_bind (line : ℓ) (f : σ → σ) (calls : List ο) (g : Unit → Thread σ ο ℓ β) :
    (call line f calls >>= g) = .stmt line (fun s => some ((), f s, calls)) g := rfl

theorem attempt_bind (line : ℓ) (f : σ → Option σ) (g : Unit → Thread σ ο ℓ β) :
    (attempt line f >>= g) = .stmt line (fun s => (f s).map fun s' => ((), s', [])) g := rfl

@[simp] theorem stmt_bind {γ : Type} (line : ℓ) (f : σ → Option (γ × σ × List ο))
    (next : γ → Thread σ ο ℓ α) (g : α → Thread σ ο ℓ β) :
    (Thread.stmt line f next >>= g) = .stmt line f fun b => next b >>= g := rfl

@[simp] theorem exec_pure (a : α) (s : σ) :
    (pure a : Thread σ ο ℓ α).exec s = some (a, s, []) := rfl

@[simp] theorem exec_assign (line : ℓ) (f : σ → σ) (s : σ) :
    (assign line f : Thread σ ο ℓ Unit).exec s = some ((), f s, []) := rfl

@[simp] theorem exec_read (line : ℓ) (v : σ → α) (s : σ) :
    (read line v : Thread σ ο ℓ α).exec s = some (v s, s, []) := rfl

@[simp] theorem exec_call (line : ℓ) (f : σ → σ) (calls : List ο) (s : σ) :
    (call line f calls : Thread σ ο ℓ Unit).exec s = some ((), f s, calls) := by
  simp [call, exec]

@[simp] theorem exec_attempt (line : ℓ) (f : σ → Option σ) (s : σ) :
    (attempt line f : Thread σ ο ℓ Unit).exec s = (f s).map fun s' => ((), s', []) := by
  cases h : f s <;> simp [attempt, exec, h]

theorem exec_stmt (line : ℓ) {γ : Type} (f : σ → Option (γ × σ × List ο)) (next : γ → Thread σ ο ℓ α)
    (s : σ) :
    (Thread.stmt line f next).exec s =
      (f s).bind fun r => ((next r.1).exec r.2.1).map fun q => (q.1, q.2.1, r.2.2 ++ q.2.2) := rfl

@[simp] theorem exec_bind (t : Thread σ ο ℓ α) (g : α → Thread σ ο ℓ β) (s : σ) :
    (t >>= g).exec s =
      (t.exec s).bind fun r =>
        ((g r.1).exec r.2.1).map fun q => (q.1, q.2.1, r.2.2 ++ q.2.2) := by
  induction t generalizing s with
  | done a =>
    show (g a).exec s = ((g a).exec s).map fun q => (q.1, q.2.1, [] ++ q.2.2)
    cases (g a).exec s <;> rfl
  | stmt line f next ih =>
    rw [stmt_bind, exec_stmt, exec_stmt]
    cases f s with
    | none => rfl
    | some r =>
      rw [Option.bind_some, Option.bind_some, ih]
      cases (next r.1).exec r.2.1 with
      | none => rfl
      | some q =>
        rw [Option.map_some, Option.bind_some, Option.bind_some, Option.map_map]
        congr 1
        funext x
        simp

theorem exec_read_bind (line : ℓ) (v : σ → α) (g : α → Thread σ ο ℓ β) (s : σ) :
    (read line v >>= g).exec s = (g (v s)).exec s := by
  rw [exec_bind, exec_read, Option.bind_some]
  cases (g (v s)).exec s <;> rfl

/-! ### What every statement keeps -/

variable {M : σ → Prop}

theorem keeps_pure (a : α) : (pure a : Thread σ ο ℓ α).Keeps M := trivial

theorem keeps_assign {line : ℓ} {f : σ → σ} (h : ∀ s, M s → M (f s)) :
    (assign line f : Thread σ ο ℓ Unit).Keeps M := by
  refine ⟨fun s r hs hr => ?_, fun _ => trivial⟩
  cases hr
  exact h s hs

theorem keeps_read {line : ℓ} {v : σ → α} : (read line v : Thread σ ο ℓ α).Keeps M := by
  refine ⟨fun s r hs hr => ?_, fun _ => trivial⟩
  cases hr
  exact hs

theorem keeps_call {line : ℓ} {f : σ → σ} {calls : List ο} (h : ∀ s, M s → M (f s)) :
    (call line f calls : Thread σ ο ℓ Unit).Keeps M := by
  refine ⟨fun s r hs hr => ?_, fun _ => trivial⟩
  cases hr
  exact h s hs

theorem keeps_attempt {line : ℓ} {f : σ → Option σ} (h : ∀ s s', M s → f s = some s' → M s') :
    (attempt line f : Thread σ ο ℓ Unit).Keeps M := by
  refine ⟨fun s r hs hr => ?_, fun _ => trivial⟩
  obtain ⟨s', hs', rfl⟩ := Option.map_eq_some_iff.mp hr
  exact h s s' hs hs'

theorem keeps_bind {t : Thread σ ο ℓ α} {g : α → Thread σ ο ℓ β} (ht : t.Keeps M)
    (hg : ∀ a, (g a).Keeps M) : (t >>= g).Keeps M := by
  induction t with
  | done a => exact hg a
  | stmt line f next ih => exact ⟨ht.1, fun b => ih b (ht.2 b)⟩

end Thread

/-- What an interrupted thread has done: the state it is in, the calls, and the
statements the interrupts came before. -/
structure Outcome (σ ο ℓ : Type) where
  state : σ
  calls : List ο
  struck : List ℓ

namespace Outcome

variable {σ ο ℓ : Type}

/-- The outcome of what came before and of what came next. -/
def after (calls : List ο) (struck : List ℓ) (o : Outcome σ ο ℓ) : Outcome σ ο ℓ :=
  ⟨o.state, calls ++ o.calls, struck ++ o.struck⟩

@[simp] theorem after_nil (o : Outcome σ ο ℓ) : after [] [] o = o := rfl

end Outcome

open Thread

variable {σ ο ℓ α : Type} (irq : σ → Option (σ × List ο)) (stopped : σ → Bool)

/-- An interrupt that is due is taken where the state lets it. -/
def strike (line : ℓ) (due : Bool) (s : σ) : Outcome σ ο ℓ :=
  match due, irq s with
  | true, some r => ⟨r.1, r.2, [line]⟩
  | _, _ => ⟨s, [], []⟩

/-- The thread under the interrupts `due`, until it ends or the state stops it. -/
def interrupted : Thread σ ο ℓ α → List Bool → σ → Option (Outcome σ ο ℓ)
  | .done _, _, s => some ⟨s, [], []⟩
  | .stmt line f next, due, s =>
    let o := strike irq line (due.headD false) s
    if stopped o.state then some o
    else (f o.state).bind fun r =>
      (interrupted (next r.1) due.tail r.2.1).map (.after (o.calls ++ r.2.2) o.struck)

/-- No statement of the thread left alone is one an interrupt is taken before. -/
def Masked : Thread σ ο ℓ α → σ → Prop
  | .done _, _ => True
  | .stmt _ f next, s =>
    irq s = none ∧ stopped s = false ∧ ∀ r, f s = some r → Masked (next r.1) r.2.1

variable {irq stopped} {line : ℓ} {β : Type} {f : σ → Option (β × σ × List ο)}
  {next : β → Thread σ ο ℓ α} {t : Thread σ ο ℓ α} {due : List Bool} {s s₁ : σ} {calls : List ο}

theorem strike_of_none (h : irq s = none) (line : ℓ) (b : Bool) :
    strike irq line b s = ⟨s, [], []⟩ := by
  cases b <;> simp [strike, h]

/-- Where no interrupt is taken the thread is as good as left alone. -/
theorem interrupted_of_masked (h : Masked irq stopped t s) :
    interrupted irq stopped t due s = (t.exec s).map fun r => ⟨r.2.1, r.2.2, []⟩ := by
  induction t generalizing due s with
  | done a => rfl
  | stmt line f next ih =>
    obtain ⟨hirq, hgo, hnext⟩ := h
    simp only [interrupted, strike_of_none hirq, hgo, Bool.false_eq_true, ↓reduceIte, exec]
    cases hf : f s with
    | none => rfl
    | some r =>
      rw [Option.bind_some, Option.bind_some, ih r.1 (hnext r hf)]
      cases (next r.1).exec r.2.1 <;> rfl

theorem masked_bind {M : σ → Prop} (hM : ∀ s, M s → irq s = none ∧ stopped s = false)
    {u : Thread σ ο ℓ α} {g : α → Thread σ ο ℓ β} (hu : u.Keeps M)
    (hg : ∀ a s, M s → Masked irq stopped (g a) s) (hs : M s) :
    Masked irq stopped (u >>= g) s := by
  induction u generalizing s with
  | done a => exact hg a s hs
  | stmt line f next ih =>
    obtain ⟨hirq, hgo⟩ := hM s hs
    exact ⟨hirq, hgo, fun r hr => ih r.1 (hu.2 r.1) (hu.1 s r hs hr)⟩

theorem masked_of_keeps {M : σ → Prop} (hM : ∀ s, M s → irq s = none ∧ stopped s = false)
    (ht : t.Keeps M) (hs : M s) : Masked irq stopped t s := by
  induction t generalizing s with
  | done a => trivial
  | stmt line f next ih =>
    obtain ⟨hirq, hgo⟩ := hM s hs
    exact ⟨hirq, hgo, fun r hr => ih r.1 (ht.2 r.1) (ht.1 s r hs hr)⟩

/-- A stopped thread does nothing. -/
theorem interrupted_of_stopped (hirq : irq s = none) (hstop : stopped s = true)
    (t : Thread σ ο ℓ α) : interrupted irq stopped t due s = some ⟨s, [], []⟩ := by
  cases t with
  | done a => rfl
  | stmt line f next => simp only [interrupted, strike_of_none hirq, hstop, ↓reduceIte]

/-- An interrupt that is not due leaves the statement alone. -/
theorem interrupted_false (hgo : stopped s = false) (hdue : due.headD false = false) :
    interrupted irq stopped (.stmt line f next) due s =
      (f s).bind fun r => (interrupted irq stopped (next r.1) due.tail r.2.1).map (.after r.2.2 []) := by
  simp only [interrupted, hdue, strike, hgo, Bool.false_eq_true, ↓reduceIte, List.nil_append]

section NotDue

variable (hgo : stopped s = false) (hdue : due.headD false = false) (line : ℓ)
include hgo hdue

theorem interrupted_assign (w : σ → σ) :
    interrupted irq stopped (assign line w) due s = some ⟨w s, [], []⟩ := by
  rw [assign, interrupted_false hgo hdue]
  rfl

theorem interrupted_assign_bind (w : σ → σ) (g : Unit → Thread σ ο ℓ α) :
    interrupted irq stopped (assign line w >>= g) due s =
      interrupted irq stopped (g ()) due.tail (w s) := by
  rw [assign_bind, interrupted_false hgo hdue, Option.bind_some]
  show (interrupted irq stopped (g ()) due.tail (w s)).map (fun o => o) = _
  exact Option.map_id'

theorem interrupted_read_bind {γ : Type} (v : σ → γ) (g : γ → Thread σ ο ℓ α) :
    interrupted irq stopped (read line v >>= g) due s =
      interrupted irq stopped (g (v s)) due.tail s := by
  rw [read_bind, interrupted_false hgo hdue, Option.bind_some]
  show (interrupted irq stopped (g (v s)) due.tail s).map (fun o => o) = _
  exact Option.map_id'

theorem interrupted_attempt_bind (w : σ → Option σ) (g : Unit → Thread σ ο ℓ α) :
    interrupted irq stopped (attempt line w >>= g) due s =
      (w s).bind fun s' => interrupted irq stopped (g ()) due.tail s' := by
  rw [attempt_bind, interrupted_false hgo hdue]
  cases w s with
  | none => rfl
  | some s' =>
    show (interrupted irq stopped (g ()) due.tail s').map (fun o => o) = _
    exact Option.map_id'

theorem interrupted_call_bind (w : σ → σ) (calls : List ο) (g : Unit → Thread σ ο ℓ α) :
    interrupted irq stopped (call line w calls >>= g) due s =
      (interrupted irq stopped (g ()) due.tail (w s)).map (.after calls []) := by
  rw [call_bind, interrupted_false hgo hdue, Option.bind_some]

end NotDue

/-- An interrupt that is taken: the handler, and the rest of the thread. -/
theorem interrupted_true (hdue : due.headD false = true) (hirq : irq s = some (s₁, calls))
    (hgo : stopped s₁ = false) :
    interrupted irq stopped (.stmt line f next) due s =
      (interrupted irq stopped (.stmt line f next) (false :: due.tail) s₁).map
        (.after calls [line]) := by
  simp only [interrupted, hdue, strike, hirq, hgo, List.headD_cons, List.tail_cons,
    Bool.false_eq_true, ↓reduceIte]
  cases f s₁ with
  | none => rfl
  | some r =>
    rw [Option.bind_some, Option.bind_some, Option.map_map]
    congr 1
    funext o
    simp [Outcome.after]

/-- The same where the handler leaves nothing to interrupt. -/
theorem interrupted_struck (hdue : due.headD false = true) (hirq : irq s = some (s₁, calls))
    (hrest : Masked irq stopped (.stmt line f next) s₁) :
    interrupted irq stopped (.stmt line f next) due s =
      ((Thread.stmt line f next).exec s₁).map fun r => ⟨r.2.1, calls ++ r.2.2, [line]⟩ := by
  rw [interrupted_true hdue hirq hrest.2.1, interrupted_of_masked hrest, Option.map_map]
  rfl

/-- An interrupt that does not meddle with a write is as good as before it. -/
theorem interrupted_put_off {w : σ → σ} {line' : ℓ} (hgo : stopped s = false)
    (hfirst : due.headD false = false) (hsecond : due.tail.headD false = true)
    (hirq : irq (w s) = some (w s₁, calls)) (hrest : Masked irq stopped (.stmt line f next) (w s₁)) :
    interrupted irq stopped (assign line' w >>= fun _ => .stmt line f next) due s =
      ((assign line' w >>= fun _ => Thread.stmt line f next).exec s₁).map
        fun r => ⟨r.2.1, calls ++ r.2.2, [line]⟩ := by
  have hexec : (assign line' w >>= fun _ => Thread.stmt line f next).exec s₁ =
      ((Thread.stmt line f next).exec (w s₁)).map fun q => (q.1, q.2.1, [] ++ q.2.2) := rfl
  rw [hexec, assign_bind, interrupted_false hgo hfirst, Option.bind_some,
    interrupted_struck hsecond hirq hrest]
  cases (Thread.stmt line f next).exec (w s₁) <;> rfl

/-- An interrupt that stops the state ends the thread. -/
theorem interrupted_stopped (hdue : due.headD false = true) (hirq : irq s = some (s₁, calls))
    (hstop : stopped s₁ = true) :
    interrupted irq stopped (.stmt line f next) due s = some ⟨s₁, calls, [line]⟩ := by
  simp only [interrupted, hdue, strike, hirq, hstop, ↓reduceIte]

end Interrupts
