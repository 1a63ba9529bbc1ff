/-
# The capture mode

Three objects record that a hotkey is being captured: the matcher, the
application's `isCapturing` and the grab of the input source; the overlay of the
status bar is a fourth. `CaptureMode` is the four together, and
`CaptureMode.Step` what an event can do to them, one constructor for each path
through the application. Every operation of the application moves its mode by
such steps (`processKeyEvent_moves`, `checkTimer_moves`), but for a reload,
which makes the matcher idle and leaves the rest.

So the records agree as long as no reload is served in the middle of a capture
(`coherent_iff`), and, reloads or not, a grab is given back when the timer runs
out (`grab_released`).
-/
import Launchpad.Application

namespace Launchpad

/-- The records of a capture; `overlay` is whether the status bar was last shown
or hidden. -/
structure CaptureMode where
  matcher : MatcherState
  isCapturing : Bool
  grabbed : Bool
  overlay : Bool
  deriving DecidableEq

namespace CaptureMode

/-- What a key event or the timer does to the records. -/
inductive Step : CaptureMode → CaptureMode → Prop
  | quiet {m} : Step m m
  | start {c g o} : Step ⟨.idle, c, g, o⟩ ⟨.capturing, true, if c then g else true, true⟩
  | append {c g o} : Step ⟨.capturing, c, g, o⟩ ⟨.capturing, c, g, true⟩
  | complete {c g o} : Step ⟨.capturing, c, g, o⟩ ⟨.idle, false, if c then false else g, false⟩
  | expire {g o} : Step ⟨.idle, true, g, o⟩ ⟨.idle, false, false, false⟩

/-- What a reload does to them. -/
def reload (m : CaptureMode) : CaptureMode := { m with matcher := .idle, overlay := true }

/-- The records agree. -/
def Coherent (m : CaptureMode) : Prop :=
  (m.isCapturing = true ↔ m.matcher = .capturing) ∧ (m.matcher = .capturing ↔ m.grabbed = true)

/-- What of it holds whatever is reloaded: a grab is a capture of the
application, and so is one of the matcher. -/
structure Held (m : CaptureMode) : Prop where
  grabbed : m.grabbed = m.isCapturing
  matcher : m.matcher = .capturing → m.isCapturing = true

variable {m m' : CaptureMode}

theorem Coherent.step (h : Coherent m) (hs : Step m m') : Coherent m' := by
  cases hs with
  | quiet => exact h
  | start => simp_all [Coherent]
  | append => exact h
  | complete => simp_all [Coherent]
  | expire => simp [Coherent]

theorem Coherent.reload (h : Coherent m) : Coherent m.reload ↔ m.matcher = .idle := by
  rcases m with ⟨_ | _, c, g, o⟩
  · exact iff_of_true h rfl
  · simp_all [Coherent, CaptureMode.reload]

theorem Held.step (h : Held m) (hs : Step m m') : Held m' := by
  cases hs with
  | quiet => exact h
  | @start c g o =>
    refine ⟨?_, fun _ => rfl⟩
    have hg : g = c := h.grabbed
    cases c <;> simp [hg]
  | append => exact ⟨h.grabbed, h.matcher⟩
  | @complete c g o =>
    refine ⟨?_, nofun⟩
    have hg : g = c := h.grabbed
    cases c <;> simp [hg]
  | expire => exact ⟨rfl, nofun⟩

theorem Held.reload (h : Held m) : Held m.reload := ⟨h.grabbed, nofun⟩

end CaptureMode

/-! ### The application moves its mode

`Moves app app'` is what every operation but a reload does: some calls, with
results shown only on an overlay, and one step of the mode. -/

namespace Application

open KeyCodes

variable {δ : Type*} [IDisplay δ] {runner : CommandRunner} {app app' : Application δ} {cs : List Call}

/-- Whether the status bar was last shown or hidden. -/
def overlay (app : Application δ) : Bool := Runs.run overlayStep false app.calls

def mode (app : Application δ) : CaptureMode :=
  ⟨app.matcher.state, app.isCapturing, app.grabbed, app.overlay⟩

theorem Does.overlay (h : Does app app' cs) : app'.overlay = Runs.run overlayStep app.overlay cs := by
  rw [Application.overlay, h.calls, Runs.run_append]
  rfl

/-- The calls lead from one to the other, with results only on an overlay. -/
structure Acts (app app' : Application δ) (cs : List Call) : Prop extends Does app app' cs where
  onOverlay : Runs.Each overlayStep Call.OnOverlay app.overlay cs

theorem Acts.trans {app'' : Application δ} {cs' : List Call} (h : Acts app app' cs)
    (h' : Acts app' app'' cs') : Acts app app'' (cs ++ cs') where
  toDoes := h.toDoes.trans h'.toDoes
  onOverlay := by
    rw [Runs.each_append, ← h.toDoes.overlay]
    exact ⟨h.onOverlay, h'.onOverlay⟩

theorem acts_perform (app : Application δ) {c : Call} (hc : c.OnOverlay app.overlay) :
    Acts app (app.perform c) [c] := ⟨does_perform app c, hc, trivial⟩

/-- Updates of other fields are no calls. -/
theorem acts_update (hcalls : app'.calls = app.calls) (hbar : app'.statusBar = app.statusBar)
    (hgrabbed : app'.grabbed = app.grabbed) : Acts app app' [] :=
  ⟨⟨by rw [hcalls, List.append_nil], hbar, hgrabbed⟩, trivial⟩

theorem acts_releaseCapture (app : Application δ) :
    Acts app app.releaseCapture app.releaseCalls := by
  refine ⟨does_releaseCapture app, ?_⟩
  unfold releaseCalls
  split_ifs
  · exact ⟨trivial, trivial⟩
  · trivial

/-- Calls that are tame are safe to make once the overlay is off. -/
theorem acts_performAll (app : Application δ) (hoff : app.overlay = false) (hcs : Tame cs) :
    Acts app (app.performAll cs) cs := by
  refine ⟨does_performAll app cs, ?_⟩
  rw [hoff]
  exact hcs.onOverlay

/-- The calls of a completed match. -/
def completeCalls (runner : CommandRunner) (app : Application δ) (sequence : KeySequence) : List Call :=
  app.releaseCalls ++ .hideStatus :: matchCalls runner (app.releaseCapture.perform .hideStatus) sequence

theorem handleCompletedMatch_acts (runner : CommandRunner) (app : Application δ) (result : MatcherResult) :
    Acts app (app.handleCompletedMatch runner result) (completeCalls runner app result.sequence) := by
  have hhide : (app.releaseCapture.perform .hideStatus).overlay = false :=
    (does_perform app.releaseCapture .hideStatus).overlay
  rw [handleCompletedMatch, executeMatch_eq]
  apply (acts_releaseCapture app).trans
  have hperform : Acts app.releaseCapture (app.releaseCapture.perform .hideStatus) [.hideStatus] :=
    acts_perform app.releaseCapture trivial
  exact hperform.trans (acts_performAll _ hhide (tame_matchCalls runner _ _))

/-- A completed match ends the capture: the grab is given back if the
application has it, and the overlay is off. -/
theorem handleCompletedMatch_mode (runner : CommandRunner) (app : Application δ) (result : MatcherResult) :
    (app.handleCompletedMatch runner result).mode =
      ⟨app.matcher.state, false, if app.isCapturing then false else app.grabbed, false⟩ := by
  have hdoes := (handleCompletedMatch_acts runner app result).toDoes
  have htame := tame_matchCalls runner (app.releaseCapture.perform .hideStatus)
    result.sequence
  have hgrabbed : (app.handleCompletedMatch runner result).grabbed =
      if app.isCapturing then false else app.grabbed := by
    rw [hdoes.grabbed, completeCalls, Runs.run_append, Runs.run_cons, htame.grab, releaseCalls]
    split_ifs <;> rfl
  have hoverlay : (app.handleCompletedMatch runner result).overlay = false := by
    rw [hdoes.overlay, completeCalls, Runs.run_append, Runs.run_cons]
    exact htame.overlay
  obtain ⟨hmatcher, hcapturing, _⟩ := handleCompletedMatch_fields runner app result
  rw [mode, hgrabbed, hoverlay, hmatcher, hcapturing]

theorem completed (runner : CommandRunner) (app : Application δ) (matcher : SequenceMatcher)
    (result : MatcherResult) :
    (∃ cs, Acts app ({ app with matcher }.handleCompletedMatch runner result) cs) ∧
      ({ app with matcher }.handleCompletedMatch runner result).mode =
        ⟨matcher.state, false, if app.isCapturing then false else app.grabbed, false⟩ := by
  have hupdate : Acts app { app with matcher } [] := acts_update rfl rfl rfl
  refine ⟨⟨_, hupdate.trans (handleCompletedMatch_acts runner _ result)⟩, ?_⟩
  rw [handleCompletedMatch_mode]

/-- What an event does: some calls, and a step of the mode. -/
def Moves (app app' : Application δ) : Prop :=
  (∃ cs, Acts app app' cs) ∧ CaptureMode.Step app.mode app'.mode

theorem acts_grabCapture (app : Application δ) : ∃ cs, Acts app app.grabCapture cs := by
  unfold grabCapture
  split_ifs
  · exact ⟨[], acts_update rfl rfl rfl⟩
  · exact ⟨[.grab], ⟨⟨rfl, rfl, rfl⟩, trivial, trivial⟩⟩

theorem acts_showCapture (app : Application δ) (now : TimePoint) :
    Acts app (app.showCapture now) [.showStatus "^[...]".toList] :=
  ⟨⟨rfl, rfl, rfl⟩, trivial, trivial⟩

theorem grabCapture_mode (app : Application δ) : app.grabCapture.mode =
    ⟨app.matcher.state, true, if app.isCapturing then app.grabbed else true, app.overlay⟩ := by
  unfold grabCapture
  split_ifs with hc
  · simp only [mode, hc]
  · have hoverlay : (app.perform .grab).overlay = app.overlay := (does_perform app .grab).overlay
    simp only [mode, ← hoverlay]
    rfl

theorem showCapture_mode (app : Application δ) (now : TimePoint) :
    (app.showCapture now).mode = { app.mode with overlay := true } := by
  have hoverlay := (acts_showCapture app now).toDoes.overlay
  simp only [mode, hoverlay]
  rfl

/-- What is done with an answer, one case for each of them. -/
theorem processResult_moves {app : Application δ} {matcher : SequenceMatcher} {i : MatcherInput}
    {result : MatcherResult} (now : TimePoint)
    (hstep : MatcherStep app.matcher.config app.matcher.context i matcher.context result) :
    Moves app ({ app with matcher }.processResult runner result now) := by
  have hupdate : Acts app { app with matcher } [] := acts_update rfl rfl rfl
  unfold processResult
  rcases hstep.answer with ⟨htype, hstate⟩ | ⟨htype, hbefore, hafter⟩ | ⟨htype, hbefore, hafter⟩ |
    ⟨htype, hbefore, hafter⟩
  · rw [htype]
    refine ⟨⟨_, hupdate⟩, ?_⟩
    have hmode : ({ app with matcher } : Application δ).mode = app.mode := by
      simp only [mode, SequenceMatcher.state, hstate]
      rfl
    rw [hmode]
    exact .quiet
  · rw [htype]
    obtain ⟨cs, hgrab⟩ := acts_grabCapture { app with matcher }
    refine ⟨⟨_, hupdate.trans (hgrab.trans (acts_showCapture _ now))⟩, ?_⟩
    rw [showCapture_mode, grabCapture_mode]
    simp only [mode, SequenceMatcher.state, hbefore, hafter]
    exact .start
  · rw [htype]
    refine ⟨⟨_, hupdate.trans (acts_showCapture _ now)⟩, ?_⟩
    rw [showCapture_mode]
    simp only [mode, SequenceMatcher.state, hbefore, hafter]
    exact .append
  · rw [htype]
    obtain ⟨hacts, hmode⟩ := completed runner app matcher result
    refine ⟨hacts, ?_⟩
    rw [hmode]
    simp only [mode, SequenceMatcher.state, hbefore, hafter]
    exact .complete

theorem processKeyEvent_moves (app : Application δ) (event : KeyEvent) :
    Moves app (app.processKeyEvent runner event) :=
  processResult_moves event.now (SequenceMatcher.feed_step app.matcher (.key event.code event.type))

/-- The end of the interval: of the matcher's capture, or of one the matcher no
longer knows of. -/
theorem timeOut_mode (runner : CommandRunner) {app : Application δ} (hc : app.isCapturing = true) :
    (∃ cs, Acts app (app.timeOut runner) cs) ∧
      (app.timeOut runner).mode = ⟨.idle, false, false, false⟩ := by
  unfold timeOut
  cases hstate : app.matcher.state with
  | idle =>
    have hoverlay : (({ app.perform .release with isCapturing := false } :
        Application δ).perform .hideStatus).overlay = false := (does_perform _ .hideStatus).overlay
    rw [SequenceMatcher.onTimeout_idle hstate]
    refine ⟨⟨[.release, .hideStatus], ⟨by simp [perform], rfl, rfl⟩, trivial, trivial, trivial⟩, ?_⟩
    simp only [reduceCtorEq, ↓reduceIte]
    simp only [mode, hoverlay]
    rw [show (({ app.perform .release with isCapturing := false } :
      Application δ).perform .hideStatus).matcher.state = app.matcher.state from rfl, hstate]
    rfl
  | capturing =>
    rw [SequenceMatcher.onTimeout_capturing hstate]
    simp only [↓reduceIte]
    obtain ⟨hacts, hmode⟩ := completed runner app _ _
    refine ⟨hacts, hmode.trans ?_⟩
    rw [if_pos hc]
    rfl

theorem checkTimer_moves (app : Application δ) (now : TimePoint) :
    Moves app (app.checkTimer runner now) := by
  have hquiet : Moves app app := ⟨⟨[], acts_update rfl rfl rfl⟩, .quiet⟩
  unfold checkTimer
  split_ifs with hidle hearly
  · exact hquiet
  · exact hquiet
  · have hc : app.isCapturing = true := by simpa using hidle
    obtain ⟨hacts, hmode⟩ := timeOut_mode runner hc
    refine ⟨hacts, ?_⟩
    rw [hmode]
    cases hstate : app.matcher.state with
    | idle =>
      have hm : app.mode = ⟨.idle, true, app.grabbed, app.overlay⟩ := by rw [mode, hstate, hc]
      rw [hm]
      exact .expire
    | capturing =>
      have hm : app.mode = ⟨.capturing, true, app.grabbed, app.overlay⟩ := by rw [mode, hstate, hc]
      rw [hm]
      exact .complete

theorem reloadConfiguration_mode (app : Application δ) (dir : Directory) :
    (app.reloadConfiguration dir).mode = app.mode.reload := by
  have hoverlay : (app.reloadConfiguration dir).overlay = true :=
    (does_perform (app.loadConfiguration dir) (.showStatus "Reloaded".toList)).overlay
  simp only [mode, CaptureMode.reload, hoverlay]
  rfl

theorem held_reloadConfiguration {app : Application δ} (h : app.mode.Held) (dir : Directory) :
    (app.reloadConfiguration dir).mode.Held := by
  rw [reloadConfiguration_mode]
  exact h.reload

theorem reloadConfiguration_acts (app : Application δ) (dir : Directory) :
    Acts app (app.reloadConfiguration dir) [.showStatus "Reloaded".toList] :=
  ⟨⟨rfl, rfl, rfl⟩, trivial, trivial⟩

/-! ### Runs

A step is events and then the timer, so what every move keeps, a step keeps. -/

theorem step_inv {I : Application δ → Prop}
    (hmoves : ∀ {app app' : Application δ}, I app → Moves app app' → I app') {app : Application δ}
    (h : I app) (poll : Poll) : I (app.step runner poll) := by
  have hevents : I (Runs.run (processKeyEvent runner) app poll.events) :=
    Runs.run_inv _ (fun app event happ => hmoves happ (processKeyEvent_moves app event)) app _ h
  exact hmoves hevents (checkTimer_moves _ poll.now)

/-- A reload is served while the matcher is idle. -/
def ReloadIdle (app : Application δ) : AppInput → Prop
  | .reload _ => app.matcher.state = .idle
  | .step _ => True

theorem coherent_feed {i : AppInput} (h : app.mode.Coherent) (hi : ReloadIdle app i) :
    (app.feed runner i).mode.Coherent := by
  cases i with
  | step poll =>
    exact step_inv (I := fun app => app.mode.Coherent) (fun happ hm => happ.step hm.2) h poll
  | reload dir =>
    rw [feed, reloadConfiguration_mode]
    exact h.reload.mpr hi

variable (runner) (display : δ) (font : FontRenderer) (configDirectory : Str) (dir : Directory)

omit [IDisplay δ] in
theorem mode_new : (new display font configDirectory dir).mode = ⟨.idle, false, false, false⟩ := rfl

/-- **When the records agree.** At every point of a run, `isCapturing`, the
matcher and the grab agree, if and only if no reload is served while the matcher
is capturing. -/
theorem coherent_iff (is : List AppInput) :
    (∀ pre, pre <+: is →
      ((new display font configDirectory dir).after runner pre).mode.Coherent) ↔
      Runs.Each (feed runner) ReloadIdle (new display font configDirectory dir) is := by
  constructor
  · intro hall
    apply Runs.each_of_forall
    intro pre i post his
    cases i with
    | step poll => trivial
    | reload dir' =>
      have hpre : pre <+: is := ⟨.reload dir' :: post, his.symm⟩
      have hnext : pre ++ [.reload dir'] <+: is := ⟨post, by rw [his, List.append_assoc]; rfl⟩
      have hafter := hall _ hnext
      rw [after, Runs.run_append] at hafter
      change (reloadConfiguration _ dir').mode.Coherent at hafter
      rw [reloadConfiguration_mode] at hafter
      exact (hall pre hpre).reload.mp hafter
  · rintro heach pre ⟨post, rfl⟩
    rw [Runs.each_append] at heach
    refine Runs.run_inv_of_each _ (I := fun app => app.mode.Coherent) (C := ReloadIdle)
      (fun app i happ hi => coherent_feed happ hi) _ pre ?_ heach.1
    rw [mode_new]
    simp [CaptureMode.Coherent]

/-- A directory without files. -/
def noFiles : Directory := ⟨[], fun _ => none⟩

/-- Shift is tapped, and the configuration reloaded before the next event. -/
def reloadInCapture : List AppInput :=
  [.step ⟨[⟨kpkeyShift, .pressed, 0⟩], 0⟩, .step ⟨[⟨kpkeyShift, .released, 0⟩], 0⟩,
    .reload noFiles, .step ⟨[], 0⟩]

/-- The grab is still held, and nothing is captured. -/
theorem not_coherent_reloadInCapture :
    ¬ ∀ (runner : CommandRunner) (display : MockDisplay) (font : FontRenderer)
      (configDirectory : Str) (dir : Directory) (is : List AppInput),
      ((new display font configDirectory dir).after runner is).mode.Coherent := by
  intro hall
  have h := hall (fun _ _ => 0) (.new ⟨1, 1, 4⟩) ⟨fun _ => 0⟩ [] noFiles reloadInCapture
  have hcapturing : ((new (MockDisplay.new ⟨1, 1, 4⟩) ⟨fun _ => 0⟩ [] noFiles).after (fun _ _ => 0)
      reloadInCapture).mode.isCapturing = true := by decide +kernel
  have hidle : ((new (MockDisplay.new ⟨1, 1, 4⟩) ⟨fun _ => 0⟩ [] noFiles).after (fun _ _ => 0)
      reloadInCapture).mode.matcher = .idle := by decide +kernel
  rw [h.1.mp hcapturing] at hidle
  exact nomatch hidle

/-! ### The grab is given back -/

/-- What holds in every state a run reaches, whatever it reloads. -/
structure Reachable (app : Application δ) : Prop where
  held : app.mode.Held
  usable : app.statusBar.Usable
  active : app.statusBar.active = app.overlay

variable {runner display}

theorem Reachable.acts (h : Reachable app) (hacts : Acts app app' cs) (hheld : app'.mode.Held) :
    Reachable app' := by
  obtain ⟨husable, hactive⟩ := h.usable.run cs
  refine ⟨hheld, ?_, ?_⟩
  · rw [hacts.statusBar]
    exact husable
  · rw [hacts.statusBar, hactive, h.active, hacts.toDoes.overlay]

theorem Reachable.moves (h : Reachable app) (hm : Moves app app') : Reachable app' := by
  obtain ⟨⟨cs, hacts⟩, hmode⟩ := hm
  exact h.acts hacts (h.held.step hmode)

theorem Reachable.feed (h : Reachable app) (i : AppInput) : Reachable (app.feed runner i) := by
  cases i with
  | step poll => exact step_inv (I := Reachable) Reachable.moves h poll
  | reload dir =>
    exact h.acts (reloadConfiguration_acts app dir) (held_reloadConfiguration h.held dir)

theorem reachable_after (runner : CommandRunner) (hw : 0 < (bounds display).width) (is : List AppInput) :
    Reachable ((new display font configDirectory dir).after runner is) := by
  refine Runs.run_inv _ (fun app i h => h.feed i) _ is ⟨⟨rfl, nofun⟩, ⟨hw, nofun⟩, rfl⟩

/-- The interval is over: at least the hotkey interval, less than 2³² ms. -/
theorem not_millisecondsOf_lt {d : ℤ} {interval : UInt32} (hlo : interval.toNat * 1000000 ≤ d)
    (hhi : d < 4294967296 * 1000000) : ¬ millisecondsOf d < interval := by
  rw [UInt32.lt_iff_toNat_lt, millisecondsOf_toNat (by omega) hhi]
  omega

theorem Reachable.timeOut (h : Reachable app) (now : TimePoint) (hgrabbed : app.grabbed = true)
    (hlo : app.hotInterval.toNat * 1000000 ≤ now - app.lastKeyTime)
    (hhi : now - app.lastKeyTime < 4294967296 * 1000000) :
    (app.step runner ⟨[], now⟩).mode = ⟨.idle, false, false, false⟩ ∧
      (app.step runner ⟨[], now⟩).statusBar.active = false := by
  have hcapturing : app.isCapturing = true := h.held.grabbed.symm.trans hgrabbed
  have hstep : app.step runner ⟨[], now⟩ = app.timeOut runner := by
    show app.checkTimer runner now = app.timeOut runner
    rw [checkTimer, if_neg (by rw [hcapturing]; decide), if_neg (not_millisecondsOf_lt hlo hhi)]
  have hmode : (app.step runner ⟨[], now⟩).mode = ⟨.idle, false, false, false⟩ := by
    rw [hstep]
    exact (timeOut_mode runner hcapturing).2
  have hnext : Reachable (app.step runner ⟨[], now⟩) := h.feed (.step ⟨[], now⟩)
  exact ⟨hmode, hnext.active.trans (congrArg CaptureMode.overlay hmode)⟩

/-- **No stuck grab.** In every state a run reaches in which the input is
grabbed, a step without events, made when the interval is over, gives the grab
back and leaves no capture and no overlay. -/
theorem grab_released (hw : 0 < (bounds display).width) (is : List AppInput) (now : TimePoint)
    (hgrabbed : ((new display font configDirectory dir).after runner is).grabbed = true)
    (hlo : ((new display font configDirectory dir).after runner is).hotInterval.toNat * 1000000 ≤
      now - ((new display font configDirectory dir).after runner is).lastKeyTime)
    (hhi : now - ((new display font configDirectory dir).after runner is).lastKeyTime <
      4294967296 * 1000000) :
    let app := ((new display font configDirectory dir).after runner is).step runner ⟨[], now⟩
    app.grabbed = false ∧ app.isCapturing = false ∧ app.matcher.state = .idle ∧
      app.statusBar.active = false := by
  have hreach := reachable_after font configDirectory dir runner hw is
  obtain ⟨hmode, hactive⟩ := hreach.timeOut now hgrabbed hlo hhi
  exact ⟨congrArg CaptureMode.grabbed hmode, congrArg CaptureMode.isCapturing hmode,
    congrArg CaptureMode.matcher hmode, hactive⟩

/-- The timer runs out after a reload in the middle of a capture. -/
theorem grab_released_reloadInCapture :
    ((((new (MockDisplay.new ⟨1, 1, 4⟩) ⟨fun _ => 0⟩ [] noFiles).after (fun _ _ => 0)
      reloadInCapture)).step (fun _ _ => 0) ⟨[], 700000000⟩).grabbed = false :=
  (grab_released ⟨fun _ => 0⟩ [] noFiles (by decide) reloadInCapture 700000000 (by decide +kernel)
    (by decide +kernel) (by decide +kernel)).1

end Application
end Launchpad
