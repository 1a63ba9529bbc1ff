/-
# The life of the legacy daemon

`main` of `src/main.c` from the label `again` to its `return`, statement by statement as far
as signals and what it holds open go. A signal may come before any statement, and the alarm
while the timer is set. `hup_handler` sets `reinit` and clears `keepgoing`, the two other
handlers clear `keepgoing`; `main` sets `keepgoing` once more before its loop.

* `unheard`: SIGINT and SIGTERM change nothing unless the loop is running;
* `returned_iff`: in the loop they end the daemon if and only if no SIGHUP has come since
  `reinit` was cleared, before the configuration was read; else it starts over;
* `closed_between`: whenever it starts over, or returns, every file is closed, the timer is off and
  the input let go. What is left are the sockets of failed `rce_init`s and the threads of
  `rce_start`, which no `rce_stop` ends: the inner loop of `rce_process` has no exit.
-/
import Launchpad.RunLoop

namespace Launchpad
namespace Legacy
namespace Lifecycle

/-- The statement that is next. -/
inductive Pc
  | keepGoing | clearReinit | reset | init | openEvents | rceInit | rceStart | openProc
  | enter | test | body
  | timerOff | release | rceStop | closeEvents | closeProc | deinit | testReinit | again
  | returned
  deriving DecidableEq

/-- The flags of the handlers, and what `main` holds: which of its descriptors are not -1,
whether the screen is open, the timer set and the input captured; and how many files,
sockets and threads there are. -/
structure Main where
  pc : Pc := .keepGoing
  keepgoing : Bool := true
  reinit : Bool := false
  fdKbd : Bool := false
  fdFw : Bool := false
  fdK3Vol : Bool := false
  fdProckeypad : Bool := false
  fdProcfiveway : Bool := false
  rceSock : Bool := false
  pfbscreen : Bool := false
  timer : Bool := false
  inputCaptured : Bool := false
  files : ℕ := 0
  sockets : ℕ := 0
  threads : ℕ := 0

/-- `rce_init`: no socket, one that is left open when -1 is returned, or one returned. -/
inductive Socket
  | none
  | left
  | opened
  deriving DecidableEq

/-- What the next statement finds: whether the configuration directory and the files can be
opened, what `rce_init` does and whether `rce_start` starts a thread, and how a round of the
loop leaves the timer and the input. -/
structure World where
  init : Bool
  screen : Bool
  kbd : Bool
  fw : Bool
  k3Vol : Bool
  prockeypad : Bool
  procfiveway : Bool
  socket : Socket
  thread : Bool
  timer : Bool
  inputCaptured : Bool

/-- Everything can be opened. -/
def allOpen : World where
  init := true
  screen := true
  kbd := true
  fw := true
  k3Vol := true
  prockeypad := true
  procfiveway := true
  socket := .opened
  thread := true
  timer := false
  inputCaptured := false

/-- The next statement is executed, or a signal or the alarm comes before it. -/
inductive Event
  | run (w : World)
  | signal (s : Signal)
  | alarm

def Event.isRun : Event → Bool
  | .run _ => true
  | _ => false

/-- How many of the files are open. -/
def opened (fds : List Bool) : ℕ := fds.count true

namespace Main

/-- The handlers. -/
def handle (m : Main) : Signal → Main
  | .hup => { m with reinit := true, keepgoing := false }
  | .int => { m with keepgoing := false }
  | .term => { m with keepgoing := false }

/-- `alarm_handler`, which stops the timer and lets the input go. -/
def alarm (m : Main) : Main :=
  if m.timer then { m with timer := false, inputCaptured := false } else m

/-- The next statement of `main`. -/
def next (m : Main) (w : World) : Main :=
  match m.pc with
  | .keepGoing => { m with pc := .clearReinit, keepgoing := true }
  | .clearReinit => { m with pc := .reset, reinit := false }
  | .reset => { m with pc := .init, rceSock := false }
  | .init =>
    if w.init then
      { m with pc := .openEvents, pfbscreen := w.screen, files := m.files + opened [w.screen] }
    else { m with pc := .returned }
  | .openEvents =>
    { m with
      pc := if w.kbd || w.fw then .rceInit else .timerOff
      fdKbd := w.kbd
      fdFw := w.fw
      fdK3Vol := w.k3Vol
      files := m.files + opened [w.kbd, w.fw, w.k3Vol] }
  | .rceInit =>
    { m with
      pc := .rceStart
      rceSock := w.socket = .opened
      sockets := if w.socket = .none then m.sockets else m.sockets + 1 }
  | .rceStart =>
    { m with pc := .openProc, threads := if m.rceSock && w.thread then m.threads + 1 else m.threads }
  | .openProc =>
    { m with
      pc := .enter
      fdProckeypad := w.prockeypad
      fdProcfiveway := w.procfiveway
      files := m.files + opened [w.prockeypad, w.procfiveway] }
  | .enter => { m with pc := .test, keepgoing := true }
  | .test => { m with pc := if m.keepgoing then .body else .timerOff }
  | .body => { m with pc := .test, timer := w.timer, inputCaptured := w.inputCaptured }
  | .timerOff => { m with pc := .release, timer := false }
  | .release => { m with pc := .rceStop, inputCaptured := false }
  | .rceStop =>
    { m with pc := .closeEvents, sockets := if m.rceSock then m.sockets - 1 else m.sockets }
  | .closeEvents =>
    { m with
      pc := .closeProc
      fdKbd := false
      fdFw := false
      fdK3Vol := false
      files := m.files - opened [m.fdKbd, m.fdFw, m.fdK3Vol] }
  | .closeProc =>
    { m with
      pc := .deinit
      fdProckeypad := false
      fdProcfiveway := false
      files := m.files - opened [m.fdProckeypad, m.fdProcfiveway] }
  | .deinit =>
    { m with pc := .testReinit, pfbscreen := false, files := m.files - opened [m.pfbscreen] }
  | .testReinit => { m with pc := if m.reinit then .again else .returned }
  | .again => { m with pc := .keepGoing, reinit := false }
  | .returned => m

def feed (m : Main) : Event → Main
  | .run w => m.next w
  | .signal s => m.handle s
  | .alarm => m.alarm

/-- The daemon after a run. -/
abbrev after (es : List Event) : Main := Runs.run feed {} es

/-! ### Requests that are not heard -/

end Main

def Pc.inLoop : Pc → Bool
  | .test | .body => true
  | _ => false

namespace Main

variable {m m' : Main}

/-- The two differ in `keepgoing` at most, and not while the loop runs. -/
def Alike (m m' : Main) : Prop :=
  ∃ k, m' = { m with keepgoing := k } ∧ (m.pc.inLoop = true → k = m.keepgoing)

theorem Alike.next (h : Alike m m') (w : World) : Alike (m.next w) (m'.next w) := by
  obtain ⟨k, rfl, hloop⟩ := h
  rcases m with ⟨pc, keepgoing, reinit⟩
  cases pc with
  | init =>
    unfold Main.next
    cases w.init <;> exact ⟨k, rfl, fun hc => nomatch hc⟩
  | keepGoing => exact ⟨true, rfl, fun _ => rfl⟩
  | enter => exact ⟨true, rfl, fun _ => rfl⟩
  | test =>
    obtain rfl : k = keepgoing := hloop rfl
    exact ⟨k, rfl, fun _ => rfl⟩
  | body =>
    obtain rfl : k = keepgoing := hloop rfl
    exact ⟨k, rfl, fun _ => rfl⟩
  | openEvents =>
    unfold Main.next
    cases hopen : w.kbd || w.fw <;> exact ⟨k, rfl, fun hc => nomatch hc⟩
  | testReinit => cases reinit <;> exact ⟨k, rfl, fun hc => nomatch hc⟩
  | _ => exact ⟨k, rfl, fun hc => nomatch hc⟩

theorem Alike.handle (h : Alike m m') (s : Signal) : Alike (m.handle s) (m'.handle s) := by
  obtain ⟨k, rfl, -⟩ := h
  cases s <;> exact ⟨false, rfl, fun _ => rfl⟩

theorem Alike.alarm (h : Alike m m') : Alike m.alarm m'.alarm := by
  obtain ⟨k, rfl, hloop⟩ := h
  unfold Main.alarm
  split_ifs
  · exact ⟨k, rfl, hloop⟩
  · exact ⟨k, rfl, hloop⟩

theorem Alike.feed (h : Alike m m') (e : Event) : Alike (m.feed e) (m'.feed e) := by
  cases e with
  | run w => exact h.next w
  | signal s => exact h.handle s
  | alarm => exact h.alarm

end Main

/-- Between the end of one round of `main` and the reading of the configuration. -/
def Pc.startsOver : Pc → Bool
  | .again | .keepGoing | .clearReinit => true
  | _ => false

/-- The statements up to `if (reinit)`, that one included, once the loop is told to stop. -/
def Pc.toEnd : Pc → ℕ
  | .body => 9
  | .test => 8
  | .timerOff => 7
  | .release => 6
  | .rceStop => 5
  | .closeEvents => 4
  | .closeProc => 3
  | .deinit => 2
  | .testReinit => 1
  | _ => 0

namespace Main

variable {m m' : Main}

theorem handle_fields (m : Main) (s : Signal) :
    (m.handle s).pc = m.pc ∧ (m.handle s).keepgoing = false ∧
      ((m.handle s).reinit = true ↔ m.reinit = true ∨ s = .hup) := by
  cases s <;> simp [handle]

theorem alarm_fields (m : Main) :
    m.alarm.pc = m.pc ∧ m.alarm.keepgoing = m.keepgoing ∧ m.alarm.reinit = m.reinit := by
  unfold alarm
  split_ifs <;> exact ⟨rfl, rfl, rfl⟩

/-- Only starting over clears `reinit`. -/
theorem next_reinit (w : World) (hpc : m.pc.startsOver = false) : (m.next w).reinit = m.reinit := by
  unfold next
  cases h : m.pc with
  | again => exact nomatch hpc.symm.trans (congrArg Pc.startsOver h)
  | clearReinit => exact nomatch hpc.symm.trans (congrArg Pc.startsOver h)
  | init =>
    simp only
    split_ifs <;> rfl
  | _ => rfl

theorem feed_reinit (e : Event) (hpc : m.pc.startsOver = false) :
    (m.feed e).reinit = true ↔ m.reinit = true ∨ e = .signal .hup := by
  cases e with
  | run w =>
    show (m.next w).reinit = true ↔ _
    rw [next_reinit w hpc]
    simp
  | signal s =>
    show (m.handle s).reinit = true ↔ _
    rw [(handle_fields m s).2.2]
    simp
  | alarm =>
    show m.alarm.reinit = true ↔ _
    rw [(alarm_fields m).2.2]
    simp

/-- Until it starts over, `reinit` tells whether there was a SIGHUP. -/
theorem run_reinit (es : List Event) (heach : Runs.Each feed (fun m _ => m.pc.startsOver = false) m es) :
    (Runs.run feed m es).reinit = true ↔ m.reinit = true ∨ Event.signal .hup ∈ es := by
  induction es generalizing m with
  | nil => simp
  | cons e es ih =>
    rw [Runs.run_cons, ih heach.2, feed_reinit e heach.1, List.mem_cons, or_assoc,
      eq_comm (a := e)]

/-- The loop has been told to stop, or has. -/
structure Stopping (m : Main) : Prop where
  toEnd : 0 < m.pc.toEnd
  stop : m.pc.inLoop = true → m.keepgoing = false

theorem Stopping.startsOver (h : Stopping m) : m.pc.startsOver = false := by
  have hpos := h.toEnd
  cases hpc : m.pc with
  | again => rw [hpc] at hpos; exact nomatch hpos
  | keepGoing => rw [hpc] at hpos; exact nomatch hpos
  | clearReinit => rw [hpc] at hpos; exact nomatch hpos
  | _ => rfl

theorem Stopping.next (h : Stopping m) (w : World) (hleft : 1 < m.pc.toEnd) :
    Stopping (m.next w) ∧ (m.next w).pc.toEnd + 1 = m.pc.toEnd := by
  obtain ⟨-, hstop⟩ := h
  unfold Main.next
  cases hpc : m.pc with
  | body =>
    have hkeep : m.keepgoing = false := hstop (by rw [hpc]; rfl)
    exact ⟨⟨Nat.le_of_ble_eq_true rfl, fun _ => hkeep⟩, rfl⟩
  | test =>
    have hkeep : m.keepgoing = false := hstop (by rw [hpc]; rfl)
    simp only [hkeep]
    exact ⟨⟨Nat.le_of_ble_eq_true rfl, nofun⟩, rfl⟩
  | timerOff => exact ⟨⟨Nat.le_of_ble_eq_true rfl, nofun⟩, rfl⟩
  | release => exact ⟨⟨Nat.le_of_ble_eq_true rfl, nofun⟩, rfl⟩
  | rceStop => exact ⟨⟨Nat.le_of_ble_eq_true rfl, nofun⟩, rfl⟩
  | closeEvents => exact ⟨⟨Nat.le_of_ble_eq_true rfl, nofun⟩, rfl⟩
  | closeProc => exact ⟨⟨Nat.le_of_ble_eq_true rfl, nofun⟩, rfl⟩
  | deinit => exact ⟨⟨Nat.le_of_ble_eq_true rfl, nofun⟩, rfl⟩
  | _ =>
    rw [hpc] at hleft
    exact absurd hleft (by decide)

theorem Stopping.feed (h : Stopping m) (e : Event) (hleft : e.isRun = true → 1 < m.pc.toEnd) :
    Stopping (m.feed e) ∧
      (m.feed e).pc.toEnd + (if e.isRun = true then 1 else 0) = m.pc.toEnd := by
  cases e with
  | run w => exact h.next w (hleft rfl)
  | signal s =>
    obtain ⟨hpc, hkeep, -⟩ := handle_fields m s
    refine ⟨⟨?_, fun _ => hkeep⟩, congrArg Pc.toEnd hpc⟩
    show 0 < (m.handle s).pc.toEnd
    rw [hpc]
    exact h.toEnd
  | alarm =>
    obtain ⟨hpc, hkeep, -⟩ := alarm_fields m
    refine ⟨⟨?_, fun hloop => ?_⟩, congrArg Pc.toEnd hpc⟩
    · show 0 < m.alarm.pc.toEnd
      rw [hpc]
      exact h.toEnd
    · rw [show (m.feed .alarm).pc = m.alarm.pc from rfl, hpc] at hloop
      exact hkeep.trans (h.stop hloop)

/-- A stopping daemon comes to the end of its round. -/
theorem Stopping.run (es : List Event) (h : Stopping m) (hleft : es.countP Event.isRun < m.pc.toEnd) :
    (Runs.run Main.feed m es).pc.toEnd + es.countP Event.isRun = m.pc.toEnd ∧
      Runs.Each Main.feed (fun m _ => m.pc.startsOver = false) m es := by
  induction es generalizing m with
  | nil => exact ⟨rfl, trivial⟩
  | cons e es ih =>
    rw [List.countP_cons] at hleft ⊢
    obtain ⟨hnext, hcount⟩ := h.feed e fun hrun => by
      rw [if_pos hrun] at hleft
      omega
    obtain ⟨hrun, heach⟩ := ih hnext (by omega)
    refine ⟨?_, h.startsOver, heach⟩
    rw [Runs.run_cons]
    omega

end Main

/-- The statements at which the event files may be open. -/
def Pc.hasEvents : Pc → Bool
  | .rceInit | .rceStart | .openProc | .enter | .test | .body | .timerOff | .release | .rceStop
  | .closeEvents => true
  | _ => false

/-- The statements at which the files under `/proc` may be open. -/
def Pc.hasProc : Pc → Bool
  | .enter | .test | .body | .timerOff | .release | .rceStop | .closeEvents | .closeProc => true
  | _ => false

/-- The statements at which the screen may be open. -/
def Pc.hasScreen : Pc → Bool
  | .openEvents | .rceInit | .rceStart | .openProc | .enter | .test | .body | .timerOff | .release
  | .rceStop | .closeEvents | .closeProc | .deinit => true
  | _ => false

/-- The statements at which the socket of `rce_init` is open. -/
def Pc.hasSocket : Pc → Bool
  | .rceStart | .openProc | .enter | .test | .body | .timerOff | .release | .rceStop => true
  | _ => false

/-- The statements at which the timer may be set. -/
def Pc.hasTimer : Pc → Bool
  | .test | .body | .timerOff => true
  | _ => false

/-- The statements at which the input may be captured. -/
def Pc.hasCapture : Pc → Bool
  | .test | .body | .timerOff | .release => true
  | _ => false

namespace Main

variable {m : Main}

/-- What is open is known by its descriptor, and held at some statements only. -/
structure Held (m : Main) : Prop where
  files : m.files = opened [m.fdKbd, m.fdFw, m.fdK3Vol] + opened [m.fdProckeypad, m.fdProcfiveway] +
    opened [m.pfbscreen]
  events : m.pc.hasEvents = false → m.fdKbd = false ∧ m.fdFw = false ∧ m.fdK3Vol = false
  proc : m.pc.hasProc = false → m.fdProckeypad = false ∧ m.fdProcfiveway = false
  screen : m.pc.hasScreen = false → m.pfbscreen = false
  timer : m.pc.hasTimer = false → m.timer = false
  captured : m.pc.hasCapture = false → m.inputCaptured = false

theorem Held.handle (h : Held m) (s : Signal) : Held (m.handle s) := by
  cases s <;> exact ⟨h.files, h.events, h.proc, h.screen, h.timer, h.captured⟩

theorem Held.alarm (h : Held m) : Held m.alarm := by
  unfold Main.alarm
  split_ifs
  · exact ⟨h.files, h.events, h.proc, h.screen, fun _ => rfl, fun _ => rfl⟩
  · exact h

theorem Held.next (h : Held m) (w : World) : Held (m.next w) := by
  have hnone : opened [false, false, false] = 0 ∧ opened [false, false] = 0 ∧ opened [false] = 0 :=
    ⟨rfl, rfl, rfl⟩
  rcases m with ⟨pc, keepgoing, reinit, kbd, fw, vol, keypad, fiveway, sock, screen, timer, captured,
    files, sockets, threads⟩
  obtain ⟨hfiles, hevents, hproc, hscreen, htimer, hcaptured⟩ := h
  simp only at hfiles
  cases pc with
  | init =>
    have hclosed : screen = false := hscreen rfl
    unfold Main.next
    simp only
    split_ifs
    · refine ⟨?_, hevents, hproc, nofun, htimer, hcaptured⟩
      simp only [hfiles, hclosed]
      omega
    · exact ⟨hfiles, hevents, hproc, hscreen, htimer, hcaptured⟩
  | openEvents =>
    obtain ⟨rfl, rfl, rfl⟩ : kbd = false ∧ fw = false ∧ vol = false := hevents rfl
    have hcount : files + opened [w.kbd, w.fw, w.k3Vol] =
        opened [w.kbd, w.fw, w.k3Vol] + opened [keypad, fiveway] + opened [screen] := by omega
    unfold Main.next
    simp only
    split_ifs
    · exact ⟨hcount, nofun, hproc, nofun, htimer, hcaptured⟩
    · exact ⟨hcount, nofun, nofun, nofun, nofun, nofun⟩
  | openProc =>
    obtain ⟨rfl, rfl⟩ : keypad = false ∧ fiveway = false := hproc rfl
    have hcount : files + opened [w.prockeypad, w.procfiveway] =
        opened [kbd, fw, vol] + opened [w.prockeypad, w.procfiveway] + opened [screen] := by omega
    exact ⟨hcount, hevents, nofun, hscreen, htimer, hcaptured⟩
  | enter => exact ⟨hfiles, hevents, hproc, hscreen, nofun, nofun⟩
  | test => cases keepgoing <;> exact ⟨hfiles, hevents, hproc, hscreen, nofun, nofun⟩
  | body => exact ⟨hfiles, hevents, hproc, hscreen, nofun, nofun⟩
  | timerOff => exact ⟨hfiles, hevents, hproc, hscreen, fun _ => rfl, nofun⟩
  | release => exact ⟨hfiles, hevents, hproc, hscreen, htimer, fun _ => rfl⟩
  | closeEvents =>
    have hcount : files - opened [kbd, fw, vol] =
        opened [false, false, false] + opened [keypad, fiveway] + opened [screen] := by omega
    exact ⟨hcount, fun _ => ⟨rfl, rfl, rfl⟩, hproc, hscreen, htimer, hcaptured⟩
  | closeProc =>
    have hcount : files - opened [keypad, fiveway] =
        opened [kbd, fw, vol] + opened [false, false] + opened [screen] := by omega
    exact ⟨hcount, hevents, fun _ => ⟨rfl, rfl⟩, hscreen, htimer, hcaptured⟩
  | deinit =>
    have hcount : files - opened [screen] =
        opened [kbd, fw, vol] + opened [keypad, fiveway] + opened [false] := by omega
    exact ⟨hcount, hevents, hproc, fun _ => rfl, htimer, hcaptured⟩
  | testReinit => cases reinit <;> exact ⟨hfiles, hevents, hproc, hscreen, htimer, hcaptured⟩
  | _ => exact ⟨hfiles, hevents, hproc, hscreen, htimer, hcaptured⟩

theorem held_after (es : List Event) : Held (after es) := by
  refine Runs.run_inv _ (I := Held) ?_ {} es ⟨rfl, fun _ => ⟨rfl, rfl, rfl⟩, fun _ => ⟨rfl, rfl⟩,
    fun _ => rfl, fun _ => rfl, fun _ => rfl⟩
  intro m e h
  cases e with
  | run w => exact h.next w
  | signal s => exact h.handle s
  | alarm => exact h.alarm

/-! ### Sockets and threads -/

/-- The events of a run that are statements with `P`. -/
def count (P : Main → World → Bool) : Main → List Event → ℕ
  | _, [] => 0
  | m, .run w :: es => (if P m w then 1 else 0) + count P (m.next w) es
  | m, .signal s :: es => count P (m.handle s) es
  | m, .alarm :: es => count P m.alarm es

/-- `rce_init` leaves a socket behind. -/
def leaves (m : Main) (w : World) : Bool := m.pc = .rceInit && w.socket = .left

/-- `rce_start` starts a thread. -/
def starts (m : Main) (w : World) : Bool := m.pc = .rceStart && m.rceSock && w.thread

end Main

/-- The statements before `rce_init`, once `rce_sock` is -1. -/
def Pc.beforeSocket : Pc → Bool
  | .init | .openEvents | .rceInit => true
  | _ => false

namespace Main

variable {m : Main} {n : ℕ}

/-- The socket of this round, if it is open. -/
def ownSocket (m : Main) : ℕ := if m.pc.hasSocket && m.rceSock then 1 else 0

/-- Besides the one of this round, `n` sockets are open. -/
structure Left (n : ℕ) (m : Main) : Prop where
  sockets : m.sockets = n + m.ownSocket
  before : m.pc.beforeSocket = true → m.rceSock = false

theorem Left.handle (h : Left n m) (s : Signal) : Left n (m.handle s) := by
  cases s <;> exact ⟨h.sockets, h.before⟩

theorem Left.alarm (h : Left n m) : Left n m.alarm := by
  unfold Main.alarm
  split_ifs <;> exact ⟨h.sockets, h.before⟩

theorem Left.next (h : Left n m) (w : World) :
    Left (n + if leaves m w then 1 else 0) (m.next w) := by
  rcases m with ⟨pc, keepgoing, reinit, kbd, fw, vol, keypad, fiveway, sock, screen, timer, captured,
    files, sockets, threads⟩
  obtain ⟨hsockets, hbefore⟩ := h
  simp only [ownSocket] at hsockets
  cases pc with
  | init =>
    obtain rfl : sock = false := hbefore rfl
    unfold Main.next
    cases w.init <;> exact ⟨hsockets, fun _ => rfl⟩
  | openEvents =>
    obtain rfl : sock = false := hbefore rfl
    unfold Main.next
    cases hopen : w.kbd || w.fw <;> exact ⟨hsockets, fun _ => rfl⟩
  | rceInit =>
    have hopen : sockets = n := hsockets
    refine ⟨?_, nofun⟩
    unfold Main.next
    cases hsocket : w.socket <;> simp [leaves, hsocket, hopen, ownSocket, Pc.hasSocket]
  | rceStop =>
    refine ⟨?_, nofun⟩
    unfold Main.next
    cases sock <;> simp [leaves, ownSocket, Pc.hasSocket] at hsockets ⊢ <;> omega
  | reset => exact ⟨hsockets, fun _ => rfl⟩
  | test => cases keepgoing <;> exact ⟨hsockets, nofun⟩
  | testReinit => cases reinit <;> exact ⟨hsockets, nofun⟩
  | returned => exact ⟨hsockets, nofun⟩
  | _ => exact ⟨hsockets, nofun⟩

theorem left_run (es : List Event) (h : Left n m) :
    Left (n + count leaves m es) (Runs.run feed m es) := by
  induction es generalizing n m with
  | nil => exact h
  | cons e es ih =>
    cases e with
    | run w =>
      have hrun := ih (h.next w)
      rw [Nat.add_assoc] at hrun
      exact hrun
    | signal s => exact ih (h.handle s)
    | alarm => exact ih h.alarm

theorem next_threads (m : Main) (w : World) :
    (m.next w).threads = m.threads + if starts m w then 1 else 0 := by
  rcases m with ⟨pc, keepgoing, reinit, kbd, fw, vol, keypad, fiveway, sock, screen, timer, captured,
    files, sockets, threads⟩
  cases pc with
  | init =>
    unfold next
    cases w.init <;> rfl
  | rceStart =>
    unfold next
    cases sock <;> cases hthread : w.thread <;> simp [starts, hthread]
  | _ => rfl

theorem threads_run (m : Main) (es : List Event) :
    (Runs.run feed m es).threads = m.threads + count starts m es := by
  induction es generalizing m with
  | nil => rfl
  | cons e es ih =>
    rw [Runs.run_cons, ih]
    cases e with
    | run w =>
      show (m.next w).threads + _ = _
      rw [next_threads, Nat.add_assoc]
      rfl
    | signal s => cases s <;> rfl
    | alarm =>
      have halarm : m.alarm.threads = m.threads := by
        unfold alarm
        split_ifs <;> rfl
      show m.alarm.threads + _ = _
      rw [halarm]
      rfl

/-- **What is held between rounds.** Whatever signals come before whichever statement: when
`main` starts over, and when it has returned, every file it opened is closed, the timer is off
and the input let go. Open are the sockets that `rce_init` left behind, and every thread that
`rce_start` started still runs. -/
theorem closed_between (es : List Event)
    (hpc : (after es).pc.startsOver = true ∨ (after es).pc = .returned) :
    (after es).files = 0 ∧ (after es).timer = false ∧ (after es).inputCaptured = false ∧
      (after es).sockets = count leaves {} es ∧ (after es).threads = count starts {} es := by
  have hheld := held_after es
  have hleft : Left (0 + count leaves {} es) (after es) := left_run es ⟨rfl, nofun⟩
  have hthreads : (after es).threads = 0 + count starts {} es := threads_run {} es
  rw [Nat.zero_add] at hleft hthreads
  have hfree : (after es).pc.hasEvents = false ∧ (after es).pc.hasProc = false ∧
      (after es).pc.hasScreen = false ∧ (after es).pc.hasTimer = false ∧
      (after es).pc.hasCapture = false ∧ (after es).pc.hasSocket = false := by
    generalize (after es).pc = pc at hpc
    rcases hpc with hover | rfl
    · cases pc with
      | again => exact ⟨rfl, rfl, rfl, rfl, rfl, rfl⟩
      | keepGoing => exact ⟨rfl, rfl, rfl, rfl, rfl, rfl⟩
      | clearReinit => exact ⟨rfl, rfl, rfl, rfl, rfl, rfl⟩
      | _ => exact nomatch hover
    · exact ⟨rfl, rfl, rfl, rfl, rfl, rfl⟩
  obtain ⟨hevents, hproc, hscreen, htimer, hcapture, hsocket⟩ := hfree
  obtain ⟨hkbd, hfw, hvol⟩ := hheld.events hevents
  obtain ⟨hkeypad, hfiveway⟩ := hheld.proc hproc
  refine ⟨?_, hheld.timer htimer, hheld.captured hcapture, ?_, hthreads⟩
  · rw [hheld.files, hkbd, hfw, hvol, hkeypad, hfiveway, hheld.screen hscreen]
    rfl
  · rw [hleft.sockets, ownSocket, hsocket]
    rfl

/-- A round in which `rce_init` leaves its socket behind, ended by SIGHUP. -/
def leavingRound : List Event :=
  .replicate 9 (.run { allOpen with socket := .left }) ++ .signal .hup ::
    .replicate 9 (.run { allOpen with socket := .left })

theorem closed_between_leavingRound :
    (after (leavingRound ++ leavingRound)).files = 0 ∧ (after (leavingRound ++ leavingRound)).sockets = 2 := by
  have hreleased := closed_between (leavingRound ++ leavingRound) (Or.inl (by decide))
  exact ⟨hreleased.1, hreleased.2.2.2.1.trans (by decide)⟩

end Main
end Lifecycle
end Legacy
end Launchpad
