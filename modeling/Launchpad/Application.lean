/-
# The application

`Application` of `src/system/application.cpp`, over any display and any command
runner. Every call it makes on the objects it is built from goes through
`perform`, which records it and lets it act on the status bar and the grab;
`grab` and `release` take effect. The clock is read where the source reads it:
each event of a poll comes with the reading made while it is processed, and a
poll with the one made after its events.

`Does app app' cs` says that `app'` is `app` after the calls `cs`, with whatever
else changed; it composes (`Does.trans`), so what an operation does to the bar
and the grab follows from its list of calls.
-/
import Launchpad.SequenceMatcher
import Launchpad.Overlay
import Launchpad.Config.ConfigScanner

namespace Launchpad

open KeyCodes

/-- `ApplicationContext`, with the grab of the input source and the calls made
so far. -/
structure Application (δ : Type*) where
  keyTable : KeyTable := .new
  registry : ActionRegistry := {}
  matcher : SequenceMatcher := .new {} (some .new)
  statusBar : StatusBar δ
  configDirectory : Str
  isCapturing : Bool := false
  lastKeyTime : TimePoint := 0
  hotInterval : UInt32 := 700
  grabbed : Bool := false
  calls : List Call := []

/-- A key event and the reading of the clock while it is processed. -/
structure KeyEvent where
  code : RawKeyCode
  type : KeyEventType
  now : TimePoint
  deriving DecidableEq

/-- What `poll_events` returns, and the reading of the clock after it. -/
structure Poll where
  events : List KeyEvent := []
  now : TimePoint
  deriving DecidableEq

namespace Application

variable {δ : Type*} [IDisplay δ]

def perform (app : Application δ) (c : Call) : Application δ :=
  { app with
    statusBar := app.statusBar.call c
    grabbed := grabStep app.grabbed c
    calls := app.calls ++ [c] }

def performAll (app : Application δ) (cs : List Call) : Application δ := Runs.run perform app cs

/-! ### Configuration -/

/-- One entry of `load_configuration`'s loop. -/
def registerEntry (keyTable : KeyTable) (scriptDirectory : Str) (registry : ActionRegistry)
    (entry : IniEntry) : ActionRegistry :=
  match ActionParser.parseSequence entry.key keyTable with
  | some sequence =>
    registry.registerAction sequence (ActionParser.parseCommand entry.value entry.key scriptDirectory)
  | none => registry

/-- `load_configuration` on a directory as it is read now. -/
def loadConfiguration (app : Application δ) (dir : Directory) : Application δ :=
  let scanned := ConfigScanner.scanDirectory app.configDirectory dir
  let introducer := app.keyTable.findCode scanned.settings.introducerKey
  let trailer := app.keyTable.findCode scanned.settings.trailerKey
  { app with
    registry := scanned.actions.foldl (registerEntry app.keyTable scanned.settings.scriptDirectory)
      app.registry.clear
    hotInterval := scanned.settings.hotInterval
    matcher := .new ⟨introducer.getD kpkeyShift, trailer.getD kpkeyEnter, some app.keyTable⟩
      (some app.keyTable) }

def reloadConfiguration (app : Application δ) (dir : Directory) : Application δ :=
  (app.loadConfiguration dir).perform (.showStatus "Reloaded".toList)

/-- The constructor. -/
def new (display : δ) (font : FontRenderer) (configDirectory : Str) (dir : Directory) :
    Application δ :=
  ({ statusBar := { display, font }, configDirectory } : Application δ).loadConfiguration dir

/-- `~Application`: the RCE server, which nothing starts, would be stopped. -/
def destroy (app : Application δ) : Application δ := app

/-! ### Events and the timer -/

variable (runner : CommandRunner)

/-- The executor of the application; its notifier is the status bar. -/
def executor (app : Application δ) : ActionExecutor := ⟨runner, true, app.keyTable⟩

/-- Give the grab back, if there is a capture. -/
def releaseCapture (app : Application δ) : Application δ :=
  if app.isCapturing then { app.perform .release with isCapturing := false } else app

/-- Look a sequence up and execute its action, if it has one. -/
def executeMatch (app : Application δ) (sequence : KeySequence) : Application δ :=
  let app := app.perform (.findAction sequence)
  match app.registry.findAction sequence with
  | some action =>
    let app := app.perform (.execute action)
    app.performAll ((app.executor runner).execute app.calls action)
  | none => app

def handleCompletedMatch (app : Application δ) (result : MatcherResult) : Application δ :=
  (app.releaseCapture.perform .hideStatus).executeMatch runner result.sequence

/-- Take the grab, unless the application has it. -/
def grabCapture (app : Application δ) : Application δ :=
  if app.isCapturing then app else { app.perform .grab with isCapturing := true }

/-- A key of the capture: the overlay is shown and the clock read. -/
def showCapture (app : Application δ) (now : TimePoint) : Application δ :=
  { app.perform (.showStatus "^[...]".toList) with lastKeyTime := now }

/-- What `process_key_event` does with the answer of the matcher. -/
def processResult (app : Application δ) (result : MatcherResult) (now : TimePoint) : Application δ :=
  match result.type with
  | .startCapture => app.grabCapture.showCapture now
  | .keyAppended => app.showCapture now
  | .sequenceComplete => app.handleCompletedMatch runner result
  | .cancelled => app.releaseCapture.perform .hideStatus
  | .none => app

def processKeyEvent (app : Application δ) (event : KeyEvent) : Application δ :=
  let (matcher, result) := app.matcher.processKeyEvent event.code event.type
  { app with matcher }.processResult runner result event.now

/-- What `check_timer` does when the interval is over. -/
def timeOut (app : Application δ) : Application δ :=
  let (matcher, result) := app.matcher.onTimeout
  let app := { app with matcher }
  if result.type = .sequenceComplete then app.handleCompletedMatch runner result
  else { app.perform .release with isCapturing := false }.perform .hideStatus

def checkTimer (app : Application δ) (now : TimePoint) : Application δ :=
  if app.isCapturing = false then app
  else if millisecondsOf (now - app.lastKeyTime) < app.hotInterval then app
  else app.timeOut runner

def step (app : Application δ) (poll : Poll) : Application δ :=
  (poll.events.foldl (processKeyEvent runner) app).checkTimer runner poll.now

end Application

/-! ### Runs -/

/-- What `run` calls: a step, or a reload of the directory as it is then. -/
inductive AppInput
  | step (poll : Poll)
  | reload (dir : Directory)

namespace Application

variable {δ : Type*} [IDisplay δ] (runner : CommandRunner)

def feed (app : Application δ) : AppInput → Application δ
  | .step poll => app.step runner poll
  | .reload dir => app.reloadConfiguration dir

/-- The application after a run. -/
abbrev after (app : Application δ) (is : List AppInput) : Application δ :=
  Runs.run (feed runner) app is

/-! ### The calls of an operation -/

/-- The bar and the grab of `app'` are those of `app` after the calls `cs`. -/
structure Does (app app' : Application δ) (cs : List Call) : Prop where
  calls : app'.calls = app.calls ++ cs
  statusBar : app'.statusBar = Runs.run StatusBar.call app.statusBar cs
  grabbed : app'.grabbed = Runs.run grabStep app.grabbed cs

variable {runner} {app app' app'' : Application δ} {cs cs' : List Call}

theorem Does.trans (h : Does app app' cs) (h' : Does app' app'' cs') : Does app app'' (cs ++ cs') where
  calls := by rw [h'.calls, h.calls, List.append_assoc]
  statusBar := by rw [h'.statusBar, h.statusBar, Runs.run_append]
  grabbed := by rw [h'.grabbed, h.grabbed, Runs.run_append]

theorem does_perform (app : Application δ) (c : Call) : Does app (app.perform c) [c] := ⟨rfl, rfl, rfl⟩

theorem does_performAll (app : Application δ) (cs : List Call) : Does app (app.performAll cs) cs := by
  induction cs generalizing app with
  | nil => exact ⟨(List.append_nil _).symm, rfl, rfl⟩
  | cons c cs ih => exact (does_perform app c).trans (ih (app.perform c))

/-- Calls change nothing but the bar, the grab and the history. -/
theorem performAll_eq (app : Application δ) (cs : List Call) :
    app.performAll cs = { app with
      statusBar := Runs.run StatusBar.call app.statusBar cs
      grabbed := Runs.run grabStep app.grabbed cs
      calls := app.calls ++ cs } := by
  induction cs generalizing app with
  | nil => simp [performAll]
  | cons c cs ih =>
    rw [show app.performAll (c :: cs) = (app.perform c).performAll cs from rfl, ih]
    simp [perform]

/-- The calls `executeMatch` makes. -/
def matchCalls (runner : CommandRunner) (app : Application δ) (sequence : KeySequence) : List Call :=
  .findAction sequence :: match app.registry.findAction sequence with
    | some action => .execute action ::
        (app.executor runner).execute (app.calls ++ [.findAction sequence, .execute action]) action
    | none => []

theorem executeMatch_eq (app : Application δ) (sequence : KeySequence) :
    app.executeMatch runner sequence = app.performAll (matchCalls runner app sequence) := by
  have hregistry : (app.perform (.findAction sequence)).registry = app.registry := rfl
  unfold executeMatch matchCalls
  simp only [hregistry]
  cases app.registry.findAction sequence with
  | none => rfl
  | some action =>
    have hcalls : ((app.perform (.findAction sequence)).perform (.execute action)).calls =
        app.calls ++ [.findAction sequence, .execute action] := by simp [perform]
    simp only [hcalls]
    rfl

omit [IDisplay δ] in
theorem tame_matchCalls (runner : CommandRunner) (app : Application δ) (sequence : KeySequence) :
    Tame (matchCalls runner app sequence) := by
  have hfind : Tame [.findAction sequence] := ⟨fun _ => rfl, ⟨trivial, trivial⟩, rfl⟩
  unfold matchCalls
  cases app.registry.findAction sequence with
  | none => exact hfind
  | some action =>
    have hexecute : Tame [.execute action] := ⟨fun _ => rfl, ⟨trivial, trivial⟩, rfl⟩
    exact hfind.append (hexecute.append (ActionExecutor.execute_tame (app.executor runner) rfl _ action))

/-- A completed match ends the capture of the application, and leaves the
matcher and the configuration. -/
theorem handleCompletedMatch_fields (runner : CommandRunner) (app : Application δ)
    (result : MatcherResult) :
    (app.handleCompletedMatch runner result).matcher = app.matcher ∧
      (app.handleCompletedMatch runner result).isCapturing = false ∧
      (app.handleCompletedMatch runner result).hotInterval = app.hotInterval ∧
      (app.handleCompletedMatch runner result).registry = app.registry := by
  rw [handleCompletedMatch, executeMatch_eq, performAll_eq]
  unfold releaseCapture
  split_ifs with h
  · exact ⟨rfl, rfl, rfl, rfl⟩
  · exact ⟨rfl, (by simpa using h : app.isCapturing = false), rfl, rfl⟩

/-- The calls of `releaseCapture`. -/
def releaseCalls (app : Application δ) : List Call := if app.isCapturing then [.release] else []

theorem does_releaseCapture (app : Application δ) :
    Does app app.releaseCapture app.releaseCalls := by
  unfold releaseCapture releaseCalls
  split_ifs
  · exact ⟨rfl, rfl, rfl⟩
  · exact ⟨(List.append_nil _).symm, rfl, rfl⟩

end Application
end Launchpad
