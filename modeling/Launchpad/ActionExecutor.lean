/-
# The action executor

`ActionExecutor` of `src/domain/action_executor.cpp`. What it does to the rest
of the world is the list of `Call`s it makes, in order. Only the exit code of a
command comes back from one, so a command runner is what it answers, given every
call made before; the results of the injector are dropped by the source, and
`execute` always returns an ok `Result`, which is left out.

`execute_tame` is what callers need: with a notifier attached, an overlay is
shown before its result is, and is hidden at the end.
-/
import Launchpad.Action
import Launchpad.Runs

namespace Launchpad

/-- A call on one of the objects the application is built from. -/
inductive Call
  | grab
  | release
  | showStatus (message : Str)
  | showResult (success : Bool)
  | hideStatus
  | runCommand (command : Str)
  | injectKey (code : RawKeyCode) (mode : SendMode)
  | injectAsciiChar (c : Char)
  | writeBmp (path : Str)
  | findAction (sequence : KeySequence)
  | execute (action : Action)
  deriving DecidableEq

/-- `ICommandRunner`: the exit code of a command run after the calls `before`. -/
abbrev CommandRunner := (before : List Call) → (command : Str) → ℤ

structure ActionExecutor where
  commandRunner : CommandRunner
  /-- Whether a notifier is attached. -/
  statusNotifier : Bool
  keyTable : KeyTable

namespace ActionExecutor

variable (e : ActionExecutor)

/-- Calls on the notifier, if there is one. -/
def notify (calls : List Call) : List Call := if e.statusNotifier then calls else []

def sendQuotedString (str : Str) : List Call := str.map .injectAsciiChar

def sendToken (keyTable : KeyTable) (token : Str) : List Call :=
  if token.length ≥ 2 ∧ token.head? = some '"' ∧ token.getLast? = some '"' then
    sendQuotedString ((token.drop 1).take (token.length - 2))
  else
    match keyTable.findCode token with
    | some code => [.injectKey code .normal]
    | none => sendQuotedString token

def executeShell (before : List Call) (command displayName : Str) : List Call :=
  let shown := e.notify [.showStatus ("^[".toList ++ displayName ++ "]".toList)]
  let rc := e.commandRunner (before ++ shown) command
  shown ++ .runCommand command :: e.notify [.showResult (rc = 0), .hideStatus]

def executeSendKeys (keys : Str) : List Call :=
  (Words.words isspace keys).flatMap (sendToken e.keyTable) ++ e.notify [.hideStatus]

def executeScreenshot (displayName : Str) : List Call :=
  e.notify [.showStatus displayName, .showResult true, .hideStatus]

/-- The calls made for an action, after the calls `before`. -/
def execute (before : List Call) (action : Action) : List Call :=
  match action.payload with
  | .shell command => e.executeShell before command action.displayName
  | .sendKeys keys => e.executeSendKeys keys
  | .screenshot => e.executeScreenshot action.displayName
  | _ => []

end ActionExecutor

/-! ### What is injected and what is run -/

/-- The calls on the injector. -/
def Call.isInjection : Call → Bool
  | .injectKey .. => true
  | .injectAsciiChar _ => true
  | _ => false

/-- The calls on the injector, in order. -/
def injections (calls : List Call) : List Call := calls.filter Call.isInjection

/-- The commands run, in order. -/
def commandsRun (calls : List Call) : List Str :=
  calls.filterMap fun
    | .runCommand command => some command
    | _ => none

@[simp] theorem injections_append (calls calls' : List Call) :
    injections (calls ++ calls') = injections calls ++ injections calls' := List.filter_append ..

namespace ActionExecutor

variable (e : ActionExecutor)

theorem injection_of_mem_sendToken {keyTable : KeyTable} {token : Str} {c : Call}
    (h : c ∈ sendToken keyTable token) : c.isInjection = true := by
  unfold sendToken at h
  split_ifs at h
  · obtain ⟨x, _, rfl⟩ := List.mem_map.mp h
    rfl
  · split at h
    · rw [List.mem_singleton] at h
      rw [h]
      rfl
    · obtain ⟨x, _, rfl⟩ := List.mem_map.mp h
      rfl

/-- Executing key text injects what its words send. -/
theorem injections_executeSendKeys (keys : Str) :
    injections (e.executeSendKeys keys) =
      (Words.words isspace keys).flatMap (sendToken e.keyTable) := by
  have hnotify : injections (e.notify [.hideStatus]) = [] := by
    unfold notify
    split_ifs <;> rfl
  rw [executeSendKeys, injections_append, hnotify, List.append_nil]
  apply List.filter_eq_self.mpr
  intro c hc
  obtain ⟨w, _, hw⟩ := List.mem_flatMap.mp hc
  exact injection_of_mem_sendToken hw

/-! ### The overlay

An abstract overlay is on or off; `overlayStep` is what a call does to it, and
`grabStep` what it does to the grab. -/

end ActionExecutor

def overlayStep (on : Bool) : Call → Bool
  | .showStatus _ => true
  | .hideStatus => false
  | _ => on

def grabStep (grabbed : Bool) : Call → Bool
  | .grab => true
  | .release => false
  | _ => grabbed

/-- A result is shown only on an overlay that is on. -/
def Call.OnOverlay (on : Bool) : Call → Prop
  | .showResult _ => on = true
  | _ => True

/-- The calls leave the grab alone, show results only on an overlay that is on,
and lead from one that is off to one that is off. -/
structure Tame (calls : List Call) : Prop where
  grab : ∀ grabbed, Runs.run grabStep grabbed calls = grabbed
  onOverlay : Runs.Each overlayStep Call.OnOverlay false calls
  overlay : Runs.run overlayStep false calls = false

theorem Tame.append {calls calls' : List Call} (h : Tame calls) (h' : Tame calls') :
    Tame (calls ++ calls') where
  grab grabbed := by rw [Runs.run_append, h.grab, h'.grab]
  onOverlay := by
    rw [Runs.each_append, h.overlay]
    exact ⟨h.onOverlay, h'.onOverlay⟩
  overlay := by rw [Runs.run_append, h.overlay, h'.overlay]

theorem tame_of_injections : ∀ calls : List Call, (∀ c ∈ calls, c.isInjection = true) → Tame calls
  | [], _ => ⟨fun _ => rfl, trivial, rfl⟩
  | c :: calls, h => by
    have hc : Tame [c] := by
      have hinj := h c List.mem_cons_self
      cases c with
      | injectKey code mode => exact ⟨fun _ => rfl, ⟨trivial, trivial⟩, rfl⟩
      | injectAsciiChar char => exact ⟨fun _ => rfl, ⟨trivial, trivial⟩, rfl⟩
      | _ => exact nomatch hinj
    exact hc.append (tame_of_injections calls fun c' hc' => h c' (List.mem_cons_of_mem c hc'))

namespace ActionExecutor

variable (e : ActionExecutor)

/-- **The executor is tame.** With a notifier attached, what it does for any
action never touches the grab, shows a result only while the overlay is on, and
leaves off an overlay that was off. -/
theorem execute_tame (hnotifier : e.statusNotifier = true) (before : List Call) (action : Action) :
    Tame (e.execute before action) := by
  unfold execute
  cases action.payload with
  | shell command =>
    simp only [executeShell, notify, hnotifier, ↓reduceIte, List.cons_append, List.nil_append]
    exact ⟨fun _ => rfl, ⟨trivial, trivial, rfl, trivial, trivial⟩, rfl⟩
  | sendKeys keys =>
    simp only [executeSendKeys, notify, hnotifier, ↓reduceIte]
    refine (tame_of_injections _ fun c hc => ?_).append ⟨fun _ => rfl, ⟨trivial, trivial⟩, rfl⟩
    obtain ⟨w, _, hw⟩ := List.mem_flatMap.mp hc
    exact injection_of_mem_sendToken hw
  | screenshot =>
    simp only [executeScreenshot, notify, hnotifier, ↓reduceIte]
    exact ⟨fun _ => rfl, ⟨trivial, rfl, trivial, trivial⟩, rfl⟩
  | script scriptPath => exact ⟨fun _ => rfl, trivial, rfl⟩
  | kindleKeys keys => exact ⟨fun _ => rfl, trivial, rfl⟩

end ActionExecutor
end Launchpad
