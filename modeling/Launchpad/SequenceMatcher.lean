/-
# The hotkey state machine

`SequenceMatcher` of `src/domain/sequence_matcher.cpp`. Idle, it watches for
the introducer pressed and released with no other key held; capturing, it
collects the substituted code of every key pressed until the trailer is
pressed or the application reports a timeout.

The machine reads a stream of `MatcherInput`s: key events and `on_timeout()`
calls. `MatcherStep` says once what one input does, with one constructor for
each branch of the four handlers; what holds of whole streams is proved from
it (`Launchpad/Capture.lean`).

`keys_down` is an `int` in the source; it is never negative, so it is `ℕ`
here, and the clamped decrement of the release handlers is `ℕ`'s subtraction.
-/
import Launchpad.KeyTable
import Launchpad.Runs

namespace Launchpad

open KeyCodes

inductive KeyEventType
  | pressed
  | released
  deriving DecidableEq

inductive MatcherState
  | idle
  | capturing
  deriving DecidableEq

inductive MatcherActionType
  | none
  | startCapture
  | keyAppended
  | sequenceComplete
  | cancelled
  deriving DecidableEq

structure MatcherResult where
  type : MatcherActionType := .none
  sequence : KeySequence := []
  deriving DecidableEq

structure MatcherConfig where
  introducer : RawKeyCode := kpkeyShift
  trailer : RawKeyCode := kpkeyEnter
  keyTable : Option KeyTable := none

structure MatcherContext where
  state : MatcherState := .idle
  keysDown : ℕ := 0
  introducerArmed : Bool := false
  sequence : KeySequence := []
  deriving DecidableEq

structure SequenceMatcher where
  config : MatcherConfig
  context : MatcherContext := {}

namespace SequenceMatcher

/-- The constructor: the table, when one is given, replaces the configured one. -/
def new (config : MatcherConfig) (table : Option KeyTable) : SequenceMatcher where
  config := match table with
    | some t => { config with keyTable := some t }
    | none => config

def state (m : SequenceMatcher) : MatcherState := m.context.state

def currentSequence (m : SequenceMatcher) : KeySequence := m.context.sequence

def substituteCode (config : MatcherConfig) (code : RawKeyCode) : RawKeyCode :=
  match config.keyTable with
  | none => code
  | some t => t.getSubstituteCode code

def handleIdlePress (m : SequenceMatcher) (code : RawKeyCode) : SequenceMatcher × MatcherResult :=
  let keysDown := m.context.keysDown + 1
  if keysDown = 1 ∧ code = m.config.introducer then
    ({ m with context := { m.context with keysDown, introducerArmed := true } }, {})
  else
    ({ m with context := { m.context with keysDown, introducerArmed := false } }, {})

def handleIdleRelease (m : SequenceMatcher) (code : RawKeyCode) : SequenceMatcher × MatcherResult :=
  let keysDown := m.context.keysDown - 1
  if keysDown = 0 ∧ code = m.config.introducer ∧ m.context.introducerArmed = true then
    ({ m with context := { state := .capturing, keysDown, introducerArmed := false, sequence := [] } },
      { type := .startCapture })
  else
    ({ m with context := { m.context with keysDown } }, {})

def handleCapturingPress (m : SequenceMatcher) (code : RawKeyCode) :
    SequenceMatcher × MatcherResult :=
  let keysDown := m.context.keysDown + 1
  if code = m.config.trailer then
    ({ m with context := { m.context with state := .idle, keysDown, sequence := [] } },
      { type := .sequenceComplete, sequence := m.context.sequence })
  else
    let sequence := m.context.sequence ++ [substituteCode m.config code]
    ({ m with context := { m.context with keysDown, sequence } }, { type := .keyAppended, sequence })

def handleCapturingRelease (m : SequenceMatcher) (_code : RawKeyCode) :
    SequenceMatcher × MatcherResult :=
  ({ m with context := { m.context with keysDown := m.context.keysDown - 1 } }, {})

def processKeyEvent (m : SequenceMatcher) (code : RawKeyCode) (type : KeyEventType) :
    SequenceMatcher × MatcherResult :=
  match m.context.state, type with
  | .idle, .pressed => m.handleIdlePress code
  | .idle, .released => m.handleIdleRelease code
  | .capturing, .pressed => m.handleCapturingPress code
  | .capturing, .released => m.handleCapturingRelease code

def onTimeout (m : SequenceMatcher) : SequenceMatcher × MatcherResult :=
  if m.context.state ≠ .capturing then (m, {})
  else
    ({ m with context := { m.context with state := .idle, sequence := [] } },
      { type := .sequenceComplete, sequence := m.context.sequence })

def cancel (m : SequenceMatcher) : SequenceMatcher × MatcherResult :=
  ({ m with context := {} }, { type := .cancelled })

end SequenceMatcher

/-! ### The machine over a stream of inputs -/

/-- One call the application makes on the matcher. -/
inductive MatcherInput
  | key (code : RawKeyCode) (type : KeyEventType)
  | timeout
  deriving DecidableEq

namespace MatcherInput

abbrev press (code : RawKeyCode) : MatcherInput := .key code .pressed

abbrev release (code : RawKeyCode) : MatcherInput := .key code .released

end MatcherInput

open MatcherInput

/-- The matcher answers one input. -/
def SequenceMatcher.feed (m : SequenceMatcher) : MatcherInput → SequenceMatcher × MatcherResult
  | .key code type => m.processKeyEvent code type
  | .timeout => m.onTimeout

/-- What one input does: the context before, the input, the context after and
the answer. One constructor for each branch of the handlers. -/
inductive MatcherStep (config : MatcherConfig) :
    MatcherContext → MatcherInput → MatcherContext → MatcherResult → Prop
  | idlePress {n armed seq} (code : RawKeyCode) :
      MatcherStep config ⟨.idle, n, armed, seq⟩ (press code)
        ⟨.idle, n + 1, decide (n = 0 ∧ code = config.introducer), seq⟩ {}
  | start {n seq} (hn : n - 1 = 0) :
      MatcherStep config ⟨.idle, n, true, seq⟩ (release config.introducer)
        ⟨.capturing, 0, false, []⟩ { type := .startCapture }
  | idleRelease {n armed seq} (code : RawKeyCode)
      (h : ¬ (n - 1 = 0 ∧ code = config.introducer ∧ armed = true)) :
      MatcherStep config ⟨.idle, n, armed, seq⟩ (release code) ⟨.idle, n - 1, armed, seq⟩ {}
  | trailer {n armed seq} :
      MatcherStep config ⟨.capturing, n, armed, seq⟩ (press config.trailer)
        ⟨.idle, n + 1, armed, []⟩ { type := .sequenceComplete, sequence := seq }
  | append {n armed seq} (code : RawKeyCode) (h : code ≠ config.trailer) :
      MatcherStep config ⟨.capturing, n, armed, seq⟩ (press code)
        ⟨.capturing, n + 1, armed, seq ++ [SequenceMatcher.substituteCode config code]⟩
        { type := .keyAppended, sequence := seq ++ [SequenceMatcher.substituteCode config code] }
  | capturingRelease {n armed seq} (code : RawKeyCode) :
      MatcherStep config ⟨.capturing, n, armed, seq⟩ (release code)
        ⟨.capturing, n - 1, armed, seq⟩ {}
  | idleTimeout {n armed seq} :
      MatcherStep config ⟨.idle, n, armed, seq⟩ .timeout ⟨.idle, n, armed, seq⟩ {}
  | timeout {n armed seq} :
      MatcherStep config ⟨.capturing, n, armed, seq⟩ .timeout
        ⟨.idle, n, armed, []⟩ { type := .sequenceComplete, sequence := seq }

/-- The answer says which way the state moved. -/
theorem MatcherStep.answer {config : MatcherConfig} {ctx ctx' : MatcherContext} {i : MatcherInput}
    {r : MatcherResult} (hs : MatcherStep config ctx i ctx' r) :
    (r.type = .none ∧ ctx'.state = ctx.state) ∨
      (r.type = .startCapture ∧ ctx.state = .idle ∧ ctx'.state = .capturing) ∨
      (r.type = .keyAppended ∧ ctx.state = .capturing ∧ ctx'.state = .capturing) ∨
      (r.type = .sequenceComplete ∧ ctx.state = .capturing ∧ ctx'.state = .idle) := by
  cases hs with
  | start => exact Or.inr (Or.inl ⟨rfl, rfl, rfl⟩)
  | append => exact Or.inr (Or.inr (Or.inl ⟨rfl, rfl, rfl⟩))
  | trailer => exact Or.inr (Or.inr (Or.inr ⟨rfl, rfl, rfl⟩))
  | timeout => exact Or.inr (Or.inr (Or.inr ⟨rfl, rfl, rfl⟩))
  | _ => exact Or.inl ⟨rfl, rfl⟩

theorem MatcherStep.press_capturing {config : MatcherConfig} {ctx ctx' : MatcherContext}
    {r : MatcherResult} {code : RawKeyCode}
    (hs : MatcherStep config ctx (press code) ctx' r) (hcap : ctx.state = .capturing)
    (hne : code ≠ config.trailer) :
    ctx'.state = .capturing ∧
      ctx'.sequence = ctx.sequence ++ [SequenceMatcher.substituteCode config code] := by
  cases hs with
  | idlePress => exact nomatch hcap
  | trailer => exact absurd rfl hne
  | append => exact ⟨rfl, rfl⟩

namespace SequenceMatcher

@[simp] theorem feed_config (m : SequenceMatcher) (i : MatcherInput) :
    (m.feed i).1.config = m.config := by
  rcases m with ⟨config, ⟨state, n, armed, seq⟩⟩
  cases i with
  | timeout => simp only [feed, onTimeout]; split <;> rfl
  | key code type =>
    cases state <;> cases type <;>
      simp only [feed, processKeyEvent, handleIdlePress, handleIdleRelease, handleCapturingPress,
        handleCapturingRelease] <;> split_ifs <;> rfl

/-- The four handlers and the timeout do what `MatcherStep` says. -/
theorem feed_step (m : SequenceMatcher) (i : MatcherInput) :
    MatcherStep m.config m.context i (m.feed i).1.context (m.feed i).2 := by
  rcases m with ⟨config, ⟨state, n, armed, seq⟩⟩
  cases i with
  | timeout =>
    cases state
    · exact .idleTimeout
    · exact .timeout
  | key code type =>
    cases state <;> cases type
    · have h : MatcherStep config ⟨.idle, n, armed, seq⟩ (press code)
          ⟨.idle, n + 1, decide (n = 0 ∧ code = config.introducer), seq⟩ {} := .idlePress code
      simp only [feed, processKeyEvent, handleIdlePress, Nat.add_eq_right]
      split_ifs with hc <;> simpa [hc] using h
    · simp only [feed, processKeyEvent, handleIdleRelease]
      split_ifs with hc
      · obtain ⟨hn, rfl, rfl⟩ := hc
        rw [hn]
        exact .start hn
      · exact .idleRelease code hc
    · simp only [feed, processKeyEvent, handleCapturingPress]
      split_ifs with hc
      · subst hc; exact .trailer
      · exact .append code hc
    · exact .capturingRelease code

theorem onTimeout_idle {m : SequenceMatcher} (h : m.state = .idle) : m.onTimeout = (m, {}) := by
  have hidle : m.context.state = .idle := h
  have hne : m.context.state ≠ .capturing := by
    rw [hidle]
    nofun
  rw [onTimeout, if_pos hne]

theorem onTimeout_capturing {m : SequenceMatcher} (h : m.state = .capturing) :
    m.onTimeout = ({ m with context := { m.context with state := .idle, sequence := [] } },
      { type := .sequenceComplete, sequence := m.context.sequence }) := by
  have hnot : ¬ m.context.state ≠ .capturing := not_not.mpr h
  rw [onTimeout, if_neg hnot]

/-- The matcher after a stream of inputs. -/
abbrev after (m : SequenceMatcher) (is : List MatcherInput) : SequenceMatcher :=
  Runs.run (Runs.next feed) m is

@[simp] theorem after_config (m : SequenceMatcher) (is : List MatcherInput) :
    (m.after is).config = m.config :=
  Runs.run_inv _ (I := fun m' => m'.config = m.config)
    (fun s i h => (feed_config s i).trans h) m is rfl

/-- A matcher as the application builds one. -/
abbrev fresh (introducer trailer : RawKeyCode) (table : KeyTable) : SequenceMatcher :=
  new ⟨introducer, trailer, some table⟩ (some table)

end SequenceMatcher
end Launchpad
