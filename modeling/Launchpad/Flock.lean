/-
# A path and the locks of its files

What the kernel keeps of one path and of `flock` on the files it has named. A
file is created when the path is opened and names none, and outlives its name:
`unlink` removes the path only. A lock belongs to a file and is held by one
owner (an open file description) at most; asking for a lock does not block.
-/
import Mathlib.Data.Nat.Notation
import Mathlib.Logic.Function.Basic

namespace Flock

variable {P : Type*}

/-- The file the path names, the files created so far, and who holds the lock
of each. -/
structure Files (P : Type*) where
  path : Option ℕ := none
  created : ℕ := 0
  owner : ℕ → Option P := fun _ => none

namespace Files

/-- `open` with `O_CREAT`: the file of the path, and it. -/
def openCreat (fs : Files P) : Files P × ℕ :=
  match fs.path with
  | some file => (fs, file)
  | none => ({ fs with path := some fs.created, created := fs.created + 1 }, fs.created)

variable [DecidableEq P]

/-- Whether `flock` with `LOCK_EX | LOCK_NB` would succeed. -/
def Free (fs : Files P) (p : P) (file : ℕ) : Prop :=
  fs.owner file = none ∨ fs.owner file = some p

instance (fs : Files P) (p : P) (file : ℕ) : Decidable (fs.Free p file) :=
  inferInstanceAs (Decidable (_ ∨ _))

def lock (fs : Files P) (p : P) (file : ℕ) : Files P :=
  { fs with owner := Function.update fs.owner file (some p) }

/-- `flock` with `LOCK_UN`, or `close`: the lock is dropped if `p` holds it. -/
def unlock (fs : Files P) (p : P) (file : ℕ) : Files P :=
  if fs.owner file = some p then { fs with owner := Function.update fs.owner file none } else fs

def unlink (fs : Files P) : Files P := { fs with path := none }

theorem owner_lock (fs : Files P) (p : P) (file file' : ℕ) :
    (fs.lock p file).owner file' = if file' = file then some p else fs.owner file' :=
  Function.update_apply fs.owner file (some p) file'

/-- Only a lock of `p` is dropped. -/
theorem owner_unlock_of_ne {fs : Files P} {p q : P} {file' : ℕ} (h : fs.owner file' = some q)
    (hne : p ≠ q) (file : ℕ) : (fs.unlock p file).owner file' = some q := by
  unfold unlock
  by_cases hown : fs.owner file = some p
  · have hfile : file' ≠ file := by
      rintro rfl
      exact hne (Option.some.inj (hown.symm.trans h))
    rw [if_pos hown]
    exact (Function.update_of_ne hfile none fs.owner).trans h
  · rw [if_neg hown]
    exact h

@[simp] theorem path_unlock (fs : Files P) (p : P) (file : ℕ) :
    (fs.unlock p file).path = fs.path := by
  unfold unlock
  by_cases hown : fs.owner file = some p
  · rw [if_pos hown]
  · rw [if_neg hown]

/-! ### Holders -/

/-- `p` holds the lock of the file the path names. -/
def HoldsNamed (fs : Files P) (p : P) (file : ℕ) : Prop :=
  fs.path = some file ∧ fs.owner file = some p

variable {fs : Files P} {p q : P} {file file' : ℕ}

omit [DecidableEq P] in
/-- The lock of the named file has one owner. -/
theorem HoldsNamed.unique (h : fs.HoldsNamed p file) (h' : fs.HoldsNamed q file') : p = q := by
  have hfile : file = file' := Option.some.inj (h.1.symm.trans h'.1)
  rw [← hfile] at h'
  exact Option.some.inj (h.2.symm.trans h'.2)

omit [DecidableEq P] in
theorem HoldsNamed.openCreat (h : fs.HoldsNamed p file) : fs.openCreat.1.HoldsNamed p file := by
  unfold Files.openCreat
  rw [h.1]
  exact h

/-- A lock that is granted is taken from nobody. -/
theorem HoldsNamed.lock (h : fs.HoldsNamed p file) (hfree : fs.Free q file') :
    (fs.lock q file').HoldsNamed p file := by
  refine ⟨h.1, ?_⟩
  rw [owner_lock]
  by_cases hfile : file = file'
  · rw [if_pos hfile]
    rw [← hfile] at hfree
    rcases hfree with hnone | hown
    · rw [h.2] at hnone
      exact nomatch hnone
    · exact hown.symm.trans h.2
  · rw [if_neg hfile]
    exact h.2

theorem HoldsNamed.unlock (h : fs.HoldsNamed p file) (hne : q ≠ p) :
    (fs.unlock q file').HoldsNamed p file :=
  ⟨(path_unlock fs q file').trans h.1, owner_unlock_of_ne h.2 hne file'⟩

theorem holdsNamed_lock (p : P) (h : fs.path = some file) : (fs.lock p file).HoldsNamed p file :=
  ⟨h, (owner_lock fs p file file).trans (if_pos rfl)⟩

end Files
end Flock
