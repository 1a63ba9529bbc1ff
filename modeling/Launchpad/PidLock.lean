/-
# The single instance

`PidLock` of `src/system/pid_lock.cpp`, any number of them on one path, their
system calls interleaved in any order. `acquire` locks the file it has opened
and `release` removes the path after it has dropped the lock, so between the
two a path can be removed under a lock, and a lock be taken on a file that no
path names any more: then the next instance finds no file, creates another, and
there are two.

These are the only two ways: if no path is removed under a lock and no nameless
file is locked (`Careful`), every holder holds the file of the path
(`LockInv`), which has one lock (`Flock.Files.HoldsNamed.unique`).
-/
import Launchpad.Flock
import Launchpad.Runs

namespace Launchpad

open Flock

/-- A `PidLock` and where it is in a call: `file_descriptor_` is open except
when `unlocked`. -/
inductive PidLock
  /-- Between calls, without a lock. -/
  | unlocked
  /-- In `acquire`, the file is open. -/
  | opened (file : ℕ)
  /-- In `acquire`, `flock` has failed. -/
  | refused (file : ℕ)
  /-- Between calls, after a successful `acquire`. -/
  | locked (file : ℕ)
  /-- In `release`, the lock is dropped. -/
  | dropped (file : ℕ)
  /-- In `release`, the file is closed. -/
  | closed
  deriving DecidableEq

/-- The two methods a process calls. -/
inductive PidLockCall
  | acquire
  | release
  deriving DecidableEq

/-- The kernel and the locks of the processes. -/
structure PidLocks (P : Type*) where
  files : Files P := {}
  lock : P → PidLock := fun _ => .unlocked

variable {P : Type*} [DecidableEq P]

/-- The next system call of a lock of `p`, which begins `call` if it is in no
call. An `acquire` that is locked and a `release` that is not make none, and
writing the process id changes no lock. -/
def PidLock.next (files : Files P) (p : P) : PidLock → PidLockCall → Files P × PidLock
  | .unlocked, .acquire => (files.openCreat.1, .opened files.openCreat.2)
  | .unlocked, .release => (files, .unlocked)
  | .opened file, _ =>
    if files.Free p file then (files.lock p file, .locked file) else (files, .refused file)
  | .refused file, _ => (files.unlock p file, .unlocked)
  | .locked file, .acquire => (files, .locked file)
  | .locked file, .release => (files.unlock p file, .dropped file)
  | .dropped file, _ => (files.unlock p file, .closed)
  | .closed, _ => (files.unlink, .unlocked)

namespace PidLocks

/-- Process `move.1` makes its next system call. -/
def step (s : PidLocks P) (move : P × PidLockCall) : PidLocks P :=
  let r := (s.lock move.1).next s.files move.1 move.2
  ⟨r.1, Function.update s.lock move.1 r.2⟩

/-- `is_locked()` between a successful `acquire` and the next `release`. -/
def IsLocked (s : PidLocks P) (p : P) : Prop := ∃ file, s.lock p = .locked file

/-- The next system call of a lock is careful: a file is locked only while the
path names it, and the path is removed only while its file is not locked. -/
def CarefulCall (files : Files P) (p : P) : PidLock → Prop
  | .opened file => files.Free p file → files.path = some file
  | .closed => files.path.bind files.owner = none
  | _ => True

instance (files : Files P) (p : P) : ∀ lock, Decidable (CarefulCall files p lock)
  | .opened _ => inferInstanceAs (Decidable (_ → _))
  | .closed => inferInstanceAs (Decidable (_ = _))
  | .unlocked => .isTrue trivial
  | .refused _ => .isTrue trivial
  | .locked _ => .isTrue trivial
  | .dropped _ => .isTrue trivial

abbrev Careful (s : PidLocks P) (move : P × PidLockCall) : Prop :=
  CarefulCall s.files move.1 (s.lock move.1)

/-- Every holder holds the lock of the file the path names. -/
def LockInv (s : PidLocks P) : Prop :=
  ∀ p file, s.lock p = .locked file → s.files.HoldsNamed p file

variable {s : PidLocks P}

/-- A step keeps the invariant if the other holders stay holders, and the
process that moves holds what it says. -/
theorem LockInv.step_of (h : LockInv s) {p : P} {call : PidLockCall} {files : Files P}
    {lock : PidLock} (hnext : (s.lock p).next s.files p call = (files, lock))
    (hother : ∀ q file, q ≠ p → s.files.HoldsNamed q file → files.HoldsNamed q file)
    (hself : ∀ file, lock = .locked file → files.HoldsNamed p file) :
    LockInv (s.step (p, call)) := by
  intro q file hq
  have hfiles : (s.step (p, call)).files = files := congrArg Prod.fst hnext
  have hlock : (s.step (p, call)).lock q = if q = p then lock else s.lock q := by
    rw [PidLocks.step, hnext]
    exact Function.update_apply s.lock p lock q
  rw [hfiles]
  rw [hlock] at hq
  by_cases hqp : q = p
  · rw [if_pos hqp] at hq
    rw [hqp]
    exact hself file hq
  · rw [if_neg hqp] at hq
    exact hother q file hqp (h q file hq)

/-- One case for each system call. -/
theorem LockInv.step (h : LockInv s) (move : P × PidLockCall) (hc : Careful s move) :
    LockInv (s.step move) := by
  obtain ⟨p, call⟩ := move
  have hunlock : ∀ file q file', q ≠ p → s.files.HoldsNamed q file' →
      (s.files.unlock p file).HoldsNamed q file' := fun file q file' hne hq => hq.unlock hne.symm
  have hquiet : ∀ q file, q ≠ p → s.files.HoldsNamed q file → s.files.HoldsNamed q file :=
    fun q file _ hq => hq
  rw [Careful] at hc
  simp only at hc
  cases hlock : s.lock p with
  | unlocked =>
    cases call with
    | acquire =>
      refine h.step_of (by rw [hlock, PidLock.next]) (fun q file _ hq => hq.openCreat) ?_
      nofun
    | release =>
      refine h.step_of (by rw [hlock, PidLock.next]) hquiet ?_
      nofun
  | opened file =>
    rw [hlock] at hc
    by_cases hfree : s.files.Free p file
    · refine h.step_of (by rw [hlock, PidLock.next, if_pos hfree]) (fun q file' _ hq => hq.lock hfree)
        fun file' hfile => ?_
      rw [← PidLock.locked.inj hfile]
      exact Files.holdsNamed_lock p (hc hfree)
    · refine h.step_of (by rw [hlock, PidLock.next, if_neg hfree]) hquiet ?_
      nofun
  | refused file =>
    refine h.step_of (by rw [hlock, PidLock.next]) (hunlock file) ?_
    nofun
  | locked file =>
    cases call with
    | acquire =>
      refine h.step_of (by rw [hlock, PidLock.next]) hquiet fun file' hfile => ?_
      rw [← PidLock.locked.inj hfile]
      exact h p file hlock
    | release =>
      refine h.step_of (by rw [hlock, PidLock.next]) (hunlock file) ?_
      nofun
  | dropped file =>
    refine h.step_of (by rw [hlock, PidLock.next]) (hunlock file) ?_
    nofun
  | closed =>
    rw [hlock] at hc
    refine h.step_of (by rw [hlock, PidLock.next]) (fun q file _ hq => ?_) ?_
    swap
    · nofun
    -- the file of the path is not locked, so nobody holds it
    have hnone : s.files.path.bind s.files.owner = none := hc
    rw [hq.1, Option.bind_some, hq.2] at hnone
    exact nomatch hnone

/-- The locks of any number of processes, before any of them runs. -/
def init : PidLocks P := {}

/-- At most one process is locked. -/
def AtMostOne (s : PidLocks P) : Prop := ∀ p q, s.IsLocked p → s.IsLocked q → p = q

omit [DecidableEq P] in
theorem LockInv.atMostOne (h : LockInv s) : s.AtMostOne := by
  rintro p q ⟨file, hp⟩ ⟨file', hq⟩
  exact (h p file hp).unique (h q file' hq)

/-- **A single instance.** If no path is removed under a lock and no file is
locked that the path does not name, then at every point of every interleaving at
most one process is locked. -/
theorem atMostOne_of_careful (moves : List (P × PidLockCall))
    (hcareful : Runs.Each step Careful init moves) (pre : List (P × PidLockCall))
    (hpre : pre <+: moves) : (Runs.run step init pre).AtMostOne := by
  obtain ⟨post, rfl⟩ := hpre
  rw [Runs.each_append] at hcareful
  have hinv : LockInv (Runs.run step (init (P := P)) pre) :=
    Runs.run_inv_of_each step (fun s move hs hm => hs.step move hm) init pre nofun hcareful.1
  exact hinv.atMostOne

/-- One process locks, and another is refused. -/
def secondRefused : List (ℕ × PidLockCall) :=
  [(0, .acquire), (0, .acquire), (1, .acquire), (1, .acquire), (1, .acquire)]

theorem atMostOne_secondRefused : (Runs.run step init secondRefused).AtMostOne :=
  atMostOne_of_careful secondRefused (by decide) secondRefused List.prefix_rfl

/-- Process 1 opens the file while process 0 holds it and locks it when process
0 has dropped it; process 0 removes the path; process 2 finds none. -/
def race : List (ℕ × PidLockCall) :=
  [(0, .acquire), (0, .acquire), (1, .acquire), (0, .release), (1, .acquire), (0, .release),
    (0, .release), (2, .acquire), (2, .acquire)]

/-- Processes 1 and 2 are locked. -/
theorem not_atMostOne_race :
    ¬ ∀ moves : List (ℕ × PidLockCall), (Runs.run step init moves).AtMostOne := by
  intro hall
  have h := hall race 1 2 ⟨0, by decide⟩ ⟨1, by decide⟩
  exact absurd h (by decide)

end PidLocks
end Launchpad
