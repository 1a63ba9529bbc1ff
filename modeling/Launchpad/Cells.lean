/-
# Stores of cells

A store gives every address a value and can be written one cell at a time.
`ChangesOnly` is the frame rule of programs that write some of the cells: it is
reflexive and transitive, and a loop keeps such a relation that keeps it in every
round (`foldl_rel`). What a loop that writes cells leaves in them is `get_write`;
of it `get_copy` is the other half of save and restore, where cells are written back
with the values they had in another store, and `get_fill` a loop that writes one
value.

The laws are asked of the stores of a class `C` that writing stays in, so that
they may hold only among stores of one shape.
-/
import Mathlib.Data.List.Basic

namespace Cells

variable {σ α κ ι : Type*}

/-- A loop stays in a reflexive and transitive relation if every round does. -/
theorem foldl_rel {R : σ → σ → Prop} (hrefl : ∀ s, R s s)
    (htrans : ∀ {s s' s''}, R s s' → R s' s'' → R s s'') {step : σ → ι → σ} :
    ∀ (is : List ι) (s : σ), (∀ i ∈ is, ∀ s, R s (step s i)) → R s (is.foldl step s)
  | [], s, _ => hrefl s
  | i :: is, s, h => by
    have hi : R s (step s i) := h i List.mem_cons_self s
    have his := foldl_rel hrefl htrans is (step s i) fun j hj => h j (List.mem_cons_of_mem i hj)
    exact htrans hi his

/-- Only cells of `P` differ. -/
def ChangesOnly (get : σ → α → κ) (P : α → Prop) (s s' : σ) : Prop :=
  ∀ a, ¬ P a → get s' a = get s a

namespace ChangesOnly

variable {get : σ → α → κ} {P : α → Prop} {s s' s'' : σ}

@[refl] theorem refl (s : σ) : ChangesOnly get P s s := fun _ _ => rfl

@[trans] theorem trans (h : ChangesOnly get P s s') (h' : ChangesOnly get P s' s'') :
    ChangesOnly get P s s'' := fun a ha => (h' a ha).trans (h a ha)

end ChangesOnly

section Copy

variable {get : σ → α → κ} {set : σ → α → κ → σ} {C : σ → Prop}

/-- Cells that are all written read as what was written to them reads, the others keep
theirs. -/
theorem get_write {val got : α → κ} (hset : ∀ s a, C s → C (set s a (val a)))
    (hne : ∀ s a b, b ≠ a → get (set s a (val a)) b = get s b) (as : List α)
    (hsame : ∀ s, ∀ a ∈ as, C s → get (set s a (val a)) a = got a) (s : σ) (hs : C s) (b : α) :
    (b ∈ as → get (as.foldl (fun s a => set s a (val a)) s) b = got b) ∧
      (b ∉ as → get (as.foldl (fun s a => set s a (val a)) s) b = get s b) := by
  induction as generalizing s with
  | nil => simp
  | cons a as ih =>
    rw [List.foldl_cons]
    obtain ⟨hmem, hnot⟩ := ih (fun s c hc => hsame s c (List.mem_cons_of_mem a hc))
      (set s a (val a)) (hset s a hs)
    constructor
    · intro hb
      by_cases hb' : b ∈ as
      · exact hmem hb'
      · obtain rfl : b = a := by simpa [hb'] using hb
        rw [hnot hb', hsame s b List.mem_cons_self hs]
    · intro hb
      rw [List.mem_cons, not_or] at hb
      rw [hnot hb.2, hne s a b hb.1]

/-- Cells written back with the values they have in `t` have them again. -/
theorem get_copy {t : σ} (hset : ∀ s a v, C s → C (set s a v))
    (hne : ∀ s a b v, b ≠ a → get (set s a v) b = get s b)
    (hback : ∀ s a, C s → get (set s a (get t a)) a = get t a) (as : List α) (s : σ) (hs : C s)
    (b : α) :
    (b ∈ as → get ((as.zip (as.map (get t))).foldl (fun s p => set s p.1 p.2) s) b = get t b) ∧
      (b ∉ as → get ((as.zip (as.map (get t))).foldl (fun s p => set s p.1 p.2) s) b = get s b) := by
  have hzip : as.zip (as.map (get t)) = as.map fun a => (a, get t a) := by
    simpa using List.zip_map' (f := fun a => a) (g := get t) (l := as)
  rw [hzip, List.foldl_map]
  exact get_write (fun s a hs => hset s a _ hs) (fun s a b hb => hne s a b _ hb) as
    (fun s a _ hs => hback s a hs) s hs b

/-- Cells that are all written with `v` have what is read of it. -/
theorem get_fill {v w : κ} (hset : ∀ s a, C s → C (set s a v))
    (hne : ∀ s a b, b ≠ a → get (set s a v) b = get s b) (as : List α)
    (hsame : ∀ s, ∀ a ∈ as, C s → get (set s a v) a = w) (s : σ) (hs : C s) (b : α) :
    (b ∈ as → get (as.foldl (fun s a => set s a v) s) b = w) ∧
      (b ∉ as → get (as.foldl (fun s a => set s a v) s) b = get s b) :=
  get_write hset hne as hsame s hs b

end Copy
end Cells
