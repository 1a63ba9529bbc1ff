/-
# The statements of the legacy loop

`process_input_event` and the idle branch of the `select` loop of `src/main.c`,
cut at their accesses to the globals that `alarm_handler` also uses, with the
timer, the handler of SIGALRM and the grab of the devices. Left alone, the
statements of a round are one step of `Hotkeys.feed` (`does_thread`).
-/
import Launchpad.Interrupts
import Launchpad.Legacy.Replay

namespace Launchpad
namespace Legacy

open Interrupts

/-- The statements an alarm can come before. -/
inductive Place
  | countUp | mode | isTrailer (code : ℤ)
  | signal | setTimer | release | leave | isEmpty | lookUp | reset | answer
  | index | store | load | count
  | isIntroducer | arm | disarm | stayIdle
  | countDown | isTap | capture | enter
  | noKeys | noSequence
  deriving DecidableEq

/-- The daemon: its globals, whether the devices are grabbed, whether the timer
is set, whether SIGALRM is handled, and whether it was killed. -/
structure Daemon where
  hot : Hotkeys := {}
  inputCaptured : Bool := false
  grabbed : Bool := false
  timer : Bool := false
  handled : Bool := false
  killed : Bool := false

namespace Daemon

/-- A write to the globals. -/
def write (f : Hotkeys → Hotkeys) (d : Daemon) : Daemon := { d with hot := f d.hot }

def captureInput (d : Daemon) : Daemon := { d with grabbed := true, inputCaptured := true }

def releaseInput (d : Daemon) : Daemon :=
  if d.inputCaptured then { d with grabbed := false, inputCaptured := false } else d

/-- `setitimer`: zero stops the timer, a negative interval is refused. -/
def setitimer (msecs : ℤ) (d : Daemon) : Daemon :=
  if msecs < 0 then d else { d with timer := decide (msecs ≠ 0) }

/-- The timer stopped and the input let go. -/
def letGo (d : Daemon) : Daemon := ({ d with handled := false, timer := false } : Daemon).releaseInput

variable (cfg : Config)

/-- The timer runs out: the handler, or the default action. -/
def alarm (d : Daemon) : Option (Daemon × List Call) :=
  if d.timer = false then none
  else
    let d := { d with timer := false }
    if d.handled then
      let r := d.hot.alarmHandler cfg false
      some (d.letGo.write fun _ => r.1, r.2)
    else some ({ d with killed := true }, [])

/-! ### The statements -/

/-- Statements of the loop. -/
abbrev Stmts := Thread Daemon Call Place

open Thread

def engageHotkeyTimer (msecs : ℤ) : Stmts Unit := do
  call .signal (fun d => { d with handled := decide (msecs ≠ 0) }) [.engageHotkeyTimer msecs]
  assign .setTimer (setitimer msecs)

/-- `hotkey_mode = 0` and what follows it in the trailer's branch. -/
def endSequence : Stmts Unit := do
  assign .leave (write fun s => { s with hotkeyMode := false })
  if (← read .isEmpty fun d => d.hot.hotSequenceLength) > 0 then
    let seq ← read .lookUp fun d => d.hot.captured
    call .lookUp id [.findSequenceAction seq]
    assign .reset (write fun s => { s with hotSequenceLength := 0 })
    match findSequenceAction cfg.actions seq with
    | some a => call .answer id [.executeAction a]
    | none =>
      let rest ← read .answer fun d => d.hot.captured
      call .answer id (rest.map (.sendKey · .normal))

def trailerPressed : Stmts Unit := do
  engageHotkeyTimer 0
  call .release releaseInput [.releaseInput]
  endSequence cfg

/-- `hot_sequence[n] = …`. -/
def store (n : ℕ) (code : ℤ) (d : Daemon) : Option Daemon :=
  if h : n < maxSeq then
    some (d.write fun s =>
      { s with hotSequence := s.hotSequence.set n (Int16.ofInt (getKeySubstituteCode code)) h })
  else none

/-- `hot_sequence_length += 1`. -/
def countKey : Stmts Unit := do
  let n ← read .load fun d => d.hot.hotSequenceLength
  assign .count (write fun s => { s with hotSequenceLength := n + 1 })

/-- `hot_sequence[hot_sequence_length] = …`, and the length. -/
def appendKey (code : ℤ) : Stmts Unit := do
  let n ← read .index fun d => d.hot.hotSequenceLength
  attempt .store (store n code)
  countKey

/-- A key of a capture. -/
def capturedKey (code : ℤ) : Stmts Unit := do
  if ← read (.isTrailer code) fun _ => decide (code = cfg.trailer) then trailerPressed cfg
  else appendKey code

def keyPressed (code : ℤ) : Stmts Unit := do
  assign .countUp (write fun s => { s with npressed := s.npressed + 1 })
  if (← read .mode fun d => d.hot.hotkeyMode) = false then
    if ← read .isIntroducer fun d => decide (d.hot.npressed = 1 ∧ code = cfg.introducer) then
      assign .arm (write fun s => { s with introducerJustPressed := true })
    else
      assign .disarm (write fun s => { s with introducerJustPressed := false })
      assign .stayIdle (write fun s => { s with hotkeyMode := false })
  else capturedKey cfg code

def keyReleased (code : ℤ) : Stmts Unit := do
  assign .countDown (write fun s => { s with npressed := s.npressed - 1 })
  if ← read .isTap fun d =>
      decide (d.hot.npressed = 0 ∧ code = cfg.introducer ∧ d.hot.introducerJustPressed) then
    assign .disarm (write fun s => { s with introducerJustPressed := false })
    call .capture captureInput [.captureInput]
    assign .enter (write fun s => { s with hotkeyMode := true })
    engageHotkeyTimer cfg.hotInterval

def processInputEvent (ev : InputEvent) : Stmts Unit :=
  if ev.type = evKey then
    if ev.value = 1 then keyPressed cfg ev.code
    else if ev.value = 0 then keyReleased cfg ev.code
    else pure ()
  else pure ()

/-- The branch of the loop for a `select` that timed out. -/
def idleTick : Stmts Unit := do
  assign .noKeys (write fun s => { s with npressed := 0 })
  assign .noSequence (write fun s => { s with hotSequenceLength := 0 })

end Daemon

/-- What the loop has to do. -/
inductive Work
  | event (ev : InputEvent)
  | idle

/-- What the loop has to do, and before which of its statements the timer runs out
if it is set. -/
structure Round where
  work : Work
  due : List Bool

/-- The same work as one input of `Hotkeys.feed`. -/
def Work.input : Work → Input
  | .event ev => .event ev
  | .idle => .idle

/-- The work an input stands for; an alarm is none. -/
def Input.work : Input → Option Work
  | .event ev => some (.event ev)
  | .alarm _ => none
  | .idle => some .idle

def Work.thread (cfg : Config) : Work → Daemon.Stmts Unit
  | .event ev => Daemon.processInputEvent cfg ev
  | .idle => Daemon.idleTick

/-- The daemon, with the calls it has made and the statements that an alarm came
before. -/
structure Log where
  daemon : Daemon := {}
  calls : List Call := []
  struck : List Place := []

variable (cfg : Config)

def Daemon.round (d : Daemon) (r : Round) : Option (Outcome Daemon Call Place) :=
  interrupted (Daemon.alarm cfg) Daemon.killed (r.work.thread cfg) r.due d

def Log.round (l : Log) (r : Round) : Option Log :=
  (l.daemon.round cfg r).map fun o => ⟨o.state, l.calls ++ o.calls, l.struck ++ o.struck⟩

/-- The daemon after the rounds, unless one of them wrote outside the buffer. -/
def Log.after (rounds : List Round) : Option Log := rounds.foldlM (Log.round cfg) {}

/-- An alarm before such a statement is an alarm before or after the event. -/
def Place.Safe : Place → Prop
  | .isTrailer code => code = cfg.trailer
  | .setTimer | .index | .store | .load | .count => False
  | _ => True

variable {cfg} {d d' : Daemon} {code : ℤ}

open Thread

namespace Daemon

/-! ### Small facts -/

@[simp] theorem write_hot (f : Hotkeys → Hotkeys) (d : Daemon) : (d.write f).hot = f d.hot := rfl

@[simp] theorem write_write (f g : Hotkeys → Hotkeys) (d : Daemon) :
    (d.write f).write g = d.write fun s => g (f s) := rfl

@[simp] theorem releaseInput_write (f : Hotkeys → Hotkeys) (d : Daemon) :
    (d.write f).releaseInput = d.releaseInput.write f := by
  unfold releaseInput write
  dsimp only
  split <;> rfl

@[simp] theorem letGo_write (f : Hotkeys → Hotkeys) (d : Daemon) :
    (d.write f).letGo = d.letGo.write f :=
  releaseInput_write f { d with handled := false, timer := false }

theorem releaseInput_hot (d : Daemon) : d.releaseInput.hot = d.hot := by
  unfold releaseInput
  split <;> rfl

@[simp] theorem letGo_hot (d : Daemon) : d.letGo.hot = d.hot := releaseInput_hot _

/-- How the globals and the kernel agree between two rounds. -/
structure Coherent (d : Daemon) : Prop where
  alive : d.killed = false
  captured : d.inputCaptured = d.hot.hotkeyMode
  grabbed : d.grabbed = d.hot.hotkeyMode
  timer : d.timer = true → d.hot.hotkeyMode = true ∧ d.handled = true
  just : d.hot.hotkeyMode = true → d.hot.introducerJustPressed = false

/-- No alarm can come. -/
def Calm (d : Daemon) : Prop := d.timer = false ∧ d.killed = false

theorem Calm.masks (d : Daemon) (h : d.Calm) : alarm cfg d = none ∧ d.killed = false :=
  ⟨if_pos h.1, h.2⟩

theorem Calm.releaseInput (h : d.Calm) : d.releaseInput.Calm := by
  unfold Daemon.releaseInput
  split <;> exact h

theorem calm_letGo (hk : d.killed = false) : d.letGo.Calm :=
  Calm.releaseInput (d := { d with handled := false, timer := false }) ⟨rfl, hk⟩

theorem Coherent.letGo (h : d.Coherent) {f : Hotkeys → Hotkeys} (hm : (f d.hot).hotkeyMode = false) :
    (d.letGo.write f).Coherent := by
  have hout : d.letGo.inputCaptured = false ∧ d.letGo.grabbed = false := by
    have hcap := h.captured
    have hgrab := h.grabbed
    unfold Daemon.letGo Daemon.releaseInput
    split
    · exact ⟨rfl, rfl⟩
    · rename_i hno
      have hno' : d.inputCaptured = false := by simpa using hno
      exact ⟨hno', hgrab.trans (hcap.symm.trans hno')⟩
  have hmode : (d.letGo.write f).hot.hotkeyMode = false := by
    rw [write_hot, letGo_hot]
    exact hm
  obtain ⟨htimer, halive⟩ := calm_letGo h.alive
  refine ⟨halive, hout.1.trans hmode.symm, hout.2.trans hmode.symm, fun ht => ?_, fun ht => ?_⟩
  · exact absurd (htimer.symm.trans ht) Bool.false_ne_true
  · exact absurd (hmode.symm.trans ht) Bool.false_ne_true

/-- A write to the globals that leaves the mode. -/
theorem Coherent.write (h : d.Coherent) {f : Hotkeys → Hotkeys}
    (hm : (f d.hot).hotkeyMode = d.hot.hotkeyMode)
    (hj : d.hot.hotkeyMode = true → (f d.hot).introducerJustPressed = false) :
    (d.write f).Coherent where
  alive := h.alive
  captured := h.captured.trans hm.symm
  grabbed := h.grabbed.trans hm.symm
  timer ht := ⟨hm.trans (h.timer ht).1, (h.timer ht).2⟩
  just ht := hj (hm.symm.trans ht)

/-! ### Rounds without an alarm -/

theorem keeps_write {line : Place} (f : Hotkeys → Hotkeys) :
    (assign line (write f) : Stmts Unit).Keeps Calm := keeps_assign fun _ hd => hd

theorem keeps_endSequence : (endSequence cfg).Keeps Calm := by
  refine keeps_bind (keeps_write _) fun _ => keeps_bind keeps_read fun n => ?_
  split
  · refine keeps_bind keeps_read fun seq => keeps_bind (keeps_call fun _ hd => hd) fun _ =>
      keeps_bind (keeps_write _) fun _ => ?_
    split
    · exact keeps_call fun _ hd => hd
    · exact keeps_bind keeps_read fun rest => keeps_call fun _ hd => hd
  · exact keeps_pure ()

theorem keeps_setTimer : (assign .setTimer (setitimer 0) : Stmts Unit).Keeps Calm :=
  keeps_assign fun _ hd => ⟨rfl, hd.2⟩

theorem keeps_trailerPressed : (trailerPressed cfg).Keeps Calm := by
  refine keeps_bind (keeps_bind (keeps_call fun _ hd => hd) fun _ => keeps_setTimer) fun _ => ?_
  exact keeps_bind (keeps_call fun _ hd => hd.releaseInput) fun _ => keeps_endSequence

theorem keeps_countKey : countKey.Keeps Calm := keeps_bind keeps_read fun _ => keeps_write _

theorem keeps_store (n : ℕ) (code : ℤ) : (attempt .store (store n code) : Stmts Unit).Keeps Calm := by
  refine keeps_attempt fun d d' hd h => ?_
  unfold store at h
  split at h
  · cases h
    exact hd
  · cases h

theorem keeps_appendKey : (appendKey code).Keeps Calm :=
  keeps_bind keeps_read fun n => keeps_bind (keeps_store n code) fun _ => keeps_countKey

theorem keeps_capturedKey : (capturedKey cfg code).Keeps Calm := by
  refine keeps_bind keeps_read fun trailer => ?_
  split
  · exact keeps_trailerPressed
  · exact keeps_appendKey

theorem keeps_keyPressed : (keyPressed cfg code).Keeps Calm := by
  refine keeps_bind (keeps_write _) fun _ => keeps_bind keeps_read fun mode => ?_
  split
  · refine keeps_bind keeps_read fun tap => ?_
    split
    · exact keeps_write _
    · exact keeps_bind (keeps_write _) fun _ => keeps_write _
  · exact keeps_capturedKey

/-- The timer is set by the last statement of the round. -/
theorem masked_keyReleased (h : d.Calm) : Masked (alarm cfg) killed (keyReleased cfg code) d := by
  have hcalm : ∀ d, Calm d → alarm cfg d = none ∧ d.killed = false := Calm.masks
  refine masked_bind hcalm (keeps_write _) (fun _ d hd => ?_) h
  refine masked_bind hcalm keeps_read (fun tap d hd => ?_) hd
  split
  · refine masked_bind hcalm (keeps_write _) (fun _ d hd => ?_) hd
    refine masked_bind hcalm (keeps_call fun _ hd => hd) (fun _ d hd => ?_) hd
    refine masked_bind hcalm (keeps_write _) (fun _ d hd => ?_) hd
    refine masked_bind hcalm (keeps_call fun _ hd => hd) (fun _ d hd => ?_) hd
    exact ⟨if_pos hd.1, hd.2, fun r hr => trivial⟩
  · trivial

theorem masked_thread (h : d.Calm) (w : Work) : Masked (alarm cfg) killed (w.thread cfg) d := by
  have hcalm : ∀ d, Calm d → alarm cfg d = none ∧ d.killed = false := Calm.masks
  cases w with
  | event ev =>
    show Masked (alarm cfg) killed (processInputEvent cfg ev) d
    unfold processInputEvent
    by_cases hk : ev.type = evKey
    · rw [if_pos hk]
      by_cases h1 : ev.value = 1
      · rw [if_pos h1]
        exact masked_of_keeps hcalm keeps_keyPressed h
      · rw [if_neg h1]
        by_cases h0 : ev.value = 0
        · rw [if_pos h0]
          exact masked_keyReleased h
        · rw [if_neg h0]
          trivial
    · rw [if_neg hk]
      trivial
  | idle => exact masked_of_keeps hcalm (keeps_bind (keeps_write _) fun _ => keeps_write _) h

/-! ### The statements left alone -/

/-- Left alone, the rest of the trailer's branch is `endCapture`. -/
theorem exec_endSequence (d : Daemon) :
    (endSequence cfg).exec d =
      some ((), d.write fun s => (s.endCapture cfg).1, (d.hot.endCapture cfg).2) := by
  unfold endSequence Hotkeys.endCapture write
  by_cases h0 : d.hot.hotSequenceLength > 0
  · cases hf : findSequenceAction cfg.actions (d.hot.hotSequence.toList.take d.hot.hotSequenceLength)
    · simp [h0, Hotkeys.captured, hf]
    · simp [h0, Hotkeys.captured, hf]
  · simp [h0]

/-- The calls of the end of a capture. -/
def endCalls (cfg : Config) (hot : Hotkeys) : List Call :=
  [.engageHotkeyTimer 0, .releaseInput] ++ (hot.endCapture cfg).2

theorem exec_trailerPressed (d : Daemon) :
    (trailerPressed cfg).exec d =
      some ((), d.letGo.write fun s => (s.endCapture cfg).1, endCalls cfg d.hot) := by
  have hhot : ({ d with handled := false, timer := false } : Daemon).releaseInput.hot = d.hot :=
    letGo_hot d
  simp [trailerPressed, engageHotkeyTimer, exec_endSequence, endCalls, letGo, setitimer, hhot]

theorem exec_appendKey (d : Daemon) (code : ℤ) :
    (appendKey code).exec d =
      (store d.hot.hotSequenceLength code d).map fun d' =>
        ((), d'.write fun s => { s with hotSequenceLength := d.hot.hotSequenceLength + 1 }, []) := by
  unfold appendKey countKey store
  by_cases h : d.hot.hotSequenceLength < maxSeq <;> simp [h]

theorem exec_capturedKey (d : Daemon) (code : ℤ) :
    (capturedKey cfg code).exec d =
      (if code = cfg.trailer then trailerPressed cfg else appendKey code).exec d := by
  rw [capturedKey, exec_read_bind]
  by_cases ht : code = cfg.trailer <;> simp only [ht, decide_true, decide_false, Bool.false_eq_true, ↓reduceIte]

/-- Left alone, the thread does what the step `o` does, and leaves the daemon coherent. -/
def Does (t : Stmts Unit) (d : Daemon) (o : Option (Hotkeys × List Call)) : Prop :=
  (t.exec d).map (fun r => (r.2.1.hot, r.2.2)) = o ∧ ∀ r, t.exec d = some r → r.2.1.Coherent

theorem does_of {t : Stmts Unit} {o : Option (Hotkeys × List Call)} (d' : Daemon) (calls : List Call)
    (hrun : t.exec d = some ((), d', calls)) (ho : o = some (d'.hot, calls)) (hd' : d'.Coherent) :
    Does t d o := by
  refine ⟨by rw [hrun, ho]; rfl, fun r hr => ?_⟩
  rw [hrun] at hr
  cases hr
  exact hd'

theorem endCapture_hotkeyMode (s : Hotkeys) : (s.endCapture cfg).1.hotkeyMode = false := by
  unfold Hotkeys.endCapture
  dsimp only
  split
  · split <;> rfl
  · rfl

theorem endCapture_hotSequenceLength (s : Hotkeys) : (s.endCapture cfg).1.hotSequenceLength = 0 := by
  unfold Hotkeys.endCapture
  dsimp only
  split
  · split <;> rfl
  · rename_i h0
    exact Nat.eq_zero_of_not_pos h0

theorem does_keyPressed (hd : d.Coherent) (code : ℤ) :
    Does (keyPressed cfg code) d (d.hot.keyPressed cfg code) := by
  cases hm : d.hot.hotkeyMode with
  | false =>
    by_cases htap : d.hot.npressed = 0 ∧ code = cfg.introducer
    · refine does_of (d.write fun s =>
        { s with npressed := s.npressed + 1, introducerJustPressed := true }) [] ?_ ?_ ?_
      · simp [keyPressed, hm, htap]
      · simp [Hotkeys.keyPressed, hm, htap]
      · exact hd.write rfl fun h => absurd (hm.symm.trans h) Bool.false_ne_true
    · have hone : d.hot.npressed + 1 = 1 ↔ d.hot.npressed = 0 := by omega
      refine does_of (d.write fun s =>
        { s with npressed := s.npressed + 1, introducerJustPressed := false, hotkeyMode := false })
        [] ?_ ?_ ?_
      · simp [keyPressed, hm, hone, htap]
      · simp [Hotkeys.keyPressed, hm, hone, htap]
      · exact hd.write hm.symm fun _ => rfl
  | true =>
    by_cases ht : code = cfg.trailer
    · refine does_of
        (d.letGo.write fun s => (({ s with npressed := s.npressed + 1 } : Hotkeys).endCapture cfg).1)
        (endCalls cfg { d.hot with npressed := d.hot.npressed + 1 }) ?_ ?_ ?_
      · simp [keyPressed, hm, ht, exec_capturedKey, exec_trailerPressed]
      · simp [Hotkeys.keyPressed, hm, ht, endCalls]
      · exact hd.letGo (endCapture_hotkeyMode _)
    · by_cases hroom : d.hot.hotSequenceLength < maxSeq
      · refine does_of (d.write fun s => { s with
          npressed := s.npressed + 1
          hotSequence := s.hotSequence.set d.hot.hotSequenceLength
            (Int16.ofInt (getKeySubstituteCode code)) hroom
          hotSequenceLength := d.hot.hotSequenceLength + 1 }) [] ?_ ?_ ?_
        · simp [keyPressed, hm, ht, exec_capturedKey, exec_appendKey, store, hroom]
        · simp [Hotkeys.keyPressed, hm, ht, hroom]
        · exact hd.write rfl hd.just
      · have hrun : (keyPressed cfg code).exec d = none := by
          simp [keyPressed, hm, ht, exec_capturedKey, exec_appendKey, store, hroom]
        refine ⟨?_, fun r hr => ?_⟩
        · simp [hrun, Hotkeys.keyPressed, hm, ht, hroom]
        · rw [hrun] at hr
          cases hr

theorem does_keyReleased (hd : d.Coherent) (code : ℤ) :
    Does (keyReleased cfg code) d (some (d.hot.keyReleased cfg code)) := by
  by_cases htap : d.hot.npressed - 1 = 0 ∧ code = cfg.introducer ∧ d.hot.introducerJustPressed = true
  · have hm : d.hot.hotkeyMode = false := by
      by_contra hm
      have hj := hd.just (by simpa using hm)
      rw [htap.2.2] at hj
      cases hj
    have ht : d.timer = false := by
      by_contra ht
      have hmode := (hd.timer (by simpa using ht)).1
      rw [hm] at hmode
      cases hmode
    refine does_of
      (setitimer cfg.hotInterval { d.captureInput.write fun s =>
        { s with npressed := s.npressed - 1, introducerJustPressed := false, hotkeyMode := true } with
        handled := decide (cfg.hotInterval ≠ 0) })
      [.captureInput, .engageHotkeyTimer cfg.hotInterval] ?_ ?_ ?_
    · simp [keyReleased, htap, captureInput, engageHotkeyTimer, write]
    · unfold setitimer
      split <;> simp [Hotkeys.keyReleased, htap, captureInput]
    · unfold setitimer
      by_cases hneg : cfg.hotInterval < 0
      · rw [if_pos hneg]
        exact ⟨hd.alive, rfl, rfl, fun h => absurd (ht.symm.trans h) Bool.false_ne_true, fun _ => rfl⟩
      · rw [if_neg hneg]
        exact ⟨hd.alive, rfl, rfl, fun h => ⟨rfl, h⟩, fun _ => rfl⟩
  · refine does_of (d.write fun s => { s with npressed := s.npressed - 1 }) [] ?_ ?_ ?_
    · simp [keyReleased, htap]
    · simp [Hotkeys.keyReleased, htap]
    · exact hd.write rfl hd.just

/-- Left alone, the statements of a round are one step of `feed`. -/
theorem does_thread (cfg : Config) (hd : d.Coherent) (w : Work) :
    Does (w.thread cfg) d (d.hot.feed cfg w.input) := by
  cases w with
  | event ev =>
    show Does (processInputEvent cfg ev) d (d.hot.processInputEvent cfg ev)
    have hpure : Does (pure ()) d (some (d.hot, [])) := does_of d [] rfl rfl hd
    unfold processInputEvent Hotkeys.processInputEvent
    split
    · split
      · exact does_keyPressed hd ev.code
      · split
        · exact does_keyReleased hd ev.code
        · exact hpure
    · exact hpure
  | idle =>
    refine does_of (d.write Hotkeys.idleTick) [] ?_ rfl (hd.write rfl hd.just)
    simp [Work.thread, idleTick]
    rfl

end Daemon
end Legacy
end Launchpad
