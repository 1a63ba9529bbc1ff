/-
# The legacy hotkey machine

`process_input_event`, `alarm_handler` and the idle branch of the `select`
loop of `src/main.c`, on the globals they share. The buffer `hot_sequence` is
an array of `MAXSEQ` codes that nothing keeps the length below, so a step is
undefined (`none`) when it would write past its end.

What a step does to the rest of the program is its list of `Call`s.
-/
import Launchpad.Legacy.Actions

namespace Launchpad
namespace Legacy

/-- A call the machine makes. -/
inductive Call
  | captureInput
  | releaseInput
  | engageHotkeyTimer (msecs : ℤ)
  | findSequenceAction (seq : List RawKeyCode)
  | executeAction (a : FoundAction)
  | sendKey (code : RawKeyCode) (mode : SendMode)
  deriving DecidableEq

/-- The globals `main` sets before the loop. -/
structure Config where
  introducer : ℤ
  trailer : ℤ
  hotInterval : ℤ
  actions : List Action

/-- The globals of the machine. -/
structure Hotkeys where
  introducerJustPressed : Bool := false
  hotkeyMode : Bool := false
  npressed : ℤ := 0
  hotSequence : Vector RawKeyCode maxSeq := Vector.replicate maxSeq 0
  hotSequenceLength : ℕ := 0

/-- `struct input_event`, without its time. -/
structure InputEvent where
  type : ℕ
  code : ℤ
  value : ℤ

/-- `EV_KEY`. -/
def evKey : ℕ := 1

namespace Hotkeys

variable (cfg : Config)

/-- The end of a capture, the same in `alarm_handler` and `process_input_event`:
a non-empty sequence is looked up, its length reset, and the action executed or
the codes replayed; the replay loop runs up to the length just reset. -/
def endCapture (s : Hotkeys) : Hotkeys × List Call :=
  let s := { s with hotkeyMode := false }
  if s.hotSequenceLength > 0 then
    let seq := s.hotSequence.toList.take s.hotSequenceLength
    let s := { s with hotSequenceLength := 0 }
    match findSequenceAction cfg.actions seq with
    | some a => (s, [.findSequenceAction seq, .executeAction a])
    | none =>
      (s, .findSequenceAction seq ::
        (s.hotSequence.toList.take s.hotSequenceLength).map (.sendKey · .normal))
  else (s, [])

/-- `timerRunning` is what `getitimer` says: time is left on the timer. -/
def alarmHandler (s : Hotkeys) (timerRunning : Bool) : Hotkeys × List Call :=
  if timerRunning then (s, [])
  else if s.hotkeyMode then
    let r := s.endCapture cfg
    (r.1, [.engageHotkeyTimer 0, .releaseInput] ++ r.2)
  else (s, [.engageHotkeyTimer 0, .releaseInput])

def keyPressed (s : Hotkeys) (code : ℤ) : Option (Hotkeys × List Call) :=
  let s := { s with npressed := s.npressed + 1 }
  if s.hotkeyMode = false then
    if s.npressed = 1 ∧ code = cfg.introducer then
      some ({ s with introducerJustPressed := true }, [])
    else some ({ s with introducerJustPressed := false, hotkeyMode := false }, [])
  else if code = cfg.trailer then
    let r := s.endCapture cfg
    some (r.1, [.engageHotkeyTimer 0, .releaseInput] ++ r.2)
  else if h : s.hotSequenceLength < maxSeq then
    some ({ s with
      hotSequence := s.hotSequence.set s.hotSequenceLength (Int16.ofInt (getKeySubstituteCode code)) h
      hotSequenceLength := s.hotSequenceLength + 1 }, [])
  else none

def keyReleased (s : Hotkeys) (code : ℤ) : Hotkeys × List Call :=
  let s := { s with npressed := s.npressed - 1 }
  if s.npressed = 0 ∧ code = cfg.introducer ∧ s.introducerJustPressed then
    ({ s with introducerJustPressed := false, hotkeyMode := true },
      [.captureInput, .engageHotkeyTimer cfg.hotInterval])
  else (s, [])

def processInputEvent (s : Hotkeys) (ev : InputEvent) : Option (Hotkeys × List Call) :=
  if ev.type = evKey then
    if ev.value = 1 then s.keyPressed cfg ev.code
    else if ev.value = 0 then some (s.keyReleased cfg ev.code)
    else some (s, [])
  else some (s, [])

/-- What the loop does when `select` times out after a second. -/
def idleTick (s : Hotkeys) : Hotkeys := { s with npressed := 0, hotSequenceLength := 0 }

end Hotkeys

/-- One input of the machine. -/
inductive Input
  | event (ev : InputEvent)
  | alarm (timerRunning : Bool)
  | idle

/-- The machine answers one input; `none` is an undefined step. -/
def Hotkeys.feed (cfg : Config) (s : Hotkeys) : Input → Option (Hotkeys × List Call)
  | .event ev => s.processInputEvent cfg ev
  | .alarm timerRunning => some (s.alarmHandler cfg timerRunning)
  | .idle => some (s.idleTick, [])

end Legacy
end Launchpad
