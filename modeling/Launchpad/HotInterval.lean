/-
# The hot interval

A key of a capture is to come within the hot interval after the key before it;
later, the capture is over. The application notices that only when it looks at
the timer, at the end of a step, and a poll returns late keys before that.

`LatePress` is a press that comes too late, split off a run at the key before
it. In between the application is `Waiting`, until a look at the timer finds the
interval over and the capture is looked up (`LookedUp`); `run_waiting` is this
for every stretch without presses. So a capture has been completed when a late
key is delivered if and only if the timer was looked at in between, after the
interval (`enforced_iff`).
-/
import Launchpad.Reload

namespace Launchpad

open KeyCodes

def Tick.isPress : Tick → Bool
  | .key event => event.type == .pressed
  | .check _ => false

namespace Application

variable {δ : Type*} [IDisplay δ] (runner : CommandRunner)

/-! ### Late keys -/

/-- The event starts a capture, or is a key of one. -/
def IsCaptureKey (app : Application δ) (event : KeyEvent) : Prop :=
  (app.matcher.processKeyEvent event.code event.type).2.type = .startCapture ∨
    (app.matcher.processKeyEvent event.code event.type).2.type = .keyAppended

/-- In the run, `key` of a capture is followed by `mid` without a press, and then
by a press more than the hot interval after it. -/
structure LatePress (app : Application δ) (ticks pre : List Tick) (key : KeyEvent) (mid : List Tick)
    (press : KeyEvent) : Prop where
  split : ∃ post, ticks = pre ++ .key key :: (mid ++ .key press :: post)
  captured : IsCaptureKey (Runs.run (tick runner) app pre) key
  next : ∀ t ∈ mid, t.isPress = false
  pressed : press.type = .pressed
  late : app.hotInterval.toNat * 1000000 < press.now - key.now

/-- From `base` to `app` the capture of `base` was completed: the matcher is idle,
and the keys collected in `base` have been looked up. -/
structure LookedUp (base app : Application δ) : Prop where
  idle : app.matcher.state = .idle
  calls : ∃ before after, app.calls =
    base.calls ++ (before ++ .findAction base.matcher.currentSequence :: after)

/-- When a late key is delivered, the capture has been completed with the keys
before it. -/
def HotIntervalEnforced (app : Application δ) (ticks : List Tick) : Prop :=
  ∀ pre key mid press, LatePress runner app ticks pre key mid press →
    LookedUp (Runs.run (tick runner) app (pre ++ [.key key]))
      (Runs.run (tick runner) app (pre ++ .key key :: mid))

/-- The timer is looked at when the interval since `since` is over. -/
def CheckedIn (hotInterval : UInt32) (since : TimePoint) (mid : List Tick) : Prop :=
  ∃ now, Tick.check now ∈ mid ∧ hotInterval ≤ millisecondsOf (now - since)

/-- Before a late key is delivered, the timer is looked at when the interval is
over. -/
def TimerChecked (app : Application δ) (ticks : List Tick) : Prop :=
  ∀ pre key mid press, LatePress runner app ticks pre key mid press →
    CheckedIn app.hotInterval key.now mid

/-! ### What holds in every state -/

/-- A capture of the matcher is one of the application, and the introducer is not
armed in it. -/
structure Sound (app : Application δ) : Prop where
  held : app.mode.Held
  unarmed : app.matcher.state = .capturing → app.matcher.context.introducerArmed = false

variable {runner} {app app' base : Application δ}

theorem processResult_matcher (app : Application δ) (result : MatcherResult) (now : TimePoint) :
    (app.processResult runner result now).matcher = app.matcher := by
  unfold processResult
  cases result.type with
  | none => rfl
  | startCapture =>
    show app.grabCapture.matcher = app.matcher
    unfold grabCapture
    split_ifs <;> rfl
  | keyAppended => rfl
  | sequenceComplete => exact (handleCompletedMatch_fields runner app result).1
  | cancelled =>
    show app.releaseCapture.matcher = app.matcher
    unfold releaseCapture
    split_ifs <;> rfl

theorem processKeyEvent_matcher (runner : CommandRunner) (app : Application δ) (event : KeyEvent) :
    (app.processKeyEvent runner event).matcher =
      (app.matcher.feed (.key event.code event.type)).1 := processResult_matcher _ _ _

theorem timeOut_matcher (app : Application δ) :
    (app.timeOut runner).matcher = (app.matcher.feed .timeout).1 := by
  unfold timeOut
  simp only
  split_ifs
  · exact (handleCompletedMatch_fields runner _ _).1
  · rfl

theorem checkTimer_matcher (runner : CommandRunner) (app : Application δ) (now : TimePoint) :
    (app.checkTimer runner now).matcher = app.matcher ∨
      (app.checkTimer runner now).matcher = (app.matcher.feed .timeout).1 := by
  unfold checkTimer
  split_ifs
  · exact Or.inl rfl
  · exact Or.inl rfl
  · exact Or.inr (timeOut_matcher app)

theorem unarmed_feed {m : SequenceMatcher}
    (h : m.state = .capturing → m.context.introducerArmed = false) (i : MatcherInput) :
    (m.feed i).1.state = .capturing → (m.feed i).1.context.introducerArmed = false := by
  have hstep := SequenceMatcher.feed_step m i
  intro hcapturing
  change (m.feed i).1.context.state = .capturing at hcapturing
  generalize (m.feed i).1.context = ctx' at hstep hcapturing ⊢
  generalize (m.feed i).2 = r at hstep
  change m.context.state = .capturing → _ at h
  generalize m.context = ctx at hstep h
  cases hstep with
  | start => rfl
  | append => exact h rfl
  | capturingRelease => exact h rfl
  | _ => exact nomatch hcapturing

theorem tick_moves (runner : CommandRunner) (app : Application δ) (t : Tick) : Moves app (app.tick runner t) := by
  cases t with
  | key event => exact processKeyEvent_moves app event
  | check now => exact checkTimer_moves app now

theorem Sound.tick (h : Sound app) (t : Tick) : Sound (app.tick runner t) := by
  refine ⟨h.held.step (tick_moves runner app t).2, ?_⟩
  cases t with
  | key event =>
    rw [Application.tick, processKeyEvent_matcher]
    exact unarmed_feed h.unarmed _
  | check now =>
    rcases checkTimer_matcher runner app now with hsame | hfeed
    · rw [Application.tick, hsame]
      exact h.unarmed
    · rw [Application.tick, hfeed]
      exact unarmed_feed h.unarmed _

theorem Sound.run (h : Sound app) (ticks : List Tick) : Sound (Runs.run (Application.tick runner) app ticks) :=
  Runs.run_inv _ (fun _ t happ => happ.tick t) app ticks h

theorem Sound.feed (h : Sound app) (i : AppInput) : Sound (app.feed runner i) := by
  cases i with
  | step poll =>
    show Sound (app.step runner poll)
    rw [step_eq_ticks]
    exact h.run poll.ticks
  | reload dir =>
    refine ⟨?_, nofun⟩
    show (app.reloadConfiguration dir).mode.Held
    rw [reloadConfiguration_mode]
    exact h.held.reload

theorem sound_after (runner : CommandRunner) (display : δ) (font : FontRenderer)
    (configDirectory : Str) (dir : Directory) (is : List AppInput) :
    Sound ((new display font configDirectory dir).after runner is) := by
  refine Runs.run_inv _ (fun app i happ => happ.feed i) _ is ⟨⟨rfl, nofun⟩, nofun⟩

theorem hotInterval_run (runner : CommandRunner) (app : Application δ) (ticks : List Tick) :
    (Runs.run (tick runner) app ticks).hotInterval = app.hotInterval := by
  refine Runs.run_inv _ (I := fun app' => app'.hotInterval = app.hotInterval) ?_ app ticks rfl
  intro app' t h
  have hconfiguration : (app'.tick runner t).configuration = app'.configuration := by
    cases t with
    | key event => exact configuration_processKeyEvent app' event
    | check now =>
      rw [Application.tick, checkTimer]
      split_ifs
      · rfl
      · rfl
      · exact configuration_timeOut app'
  exact (congrArg Configuration.hotInterval hconfiguration).trans h

/-! ### Waiting for the interval to end

Without a press, a capture only waits: releases count the keys held, and looks at
the timer change nothing until the interval is over. -/

/-- A capture is on since the key at `since`. -/
structure InCapture (base : Application δ) (since : TimePoint) : Prop where
  capturing : base.matcher.state = .capturing
  unarmed : base.matcher.context.introducerArmed = false
  isCapturing : base.isCapturing = true
  lastKeyTime : base.lastKeyTime = since

/-- The capture of `base` is still on, with the same keys. -/
structure Waiting (base app : Application δ) (since : TimePoint) : Prop extends
    InCapture app since where
  hotInterval : app.hotInterval = base.hotInterval
  sequence : app.matcher.currentSequence = base.matcher.currentSequence
  calls : app.calls = base.calls

/-- The capture is over, and none can start by a release. -/
def Over (base app : Application δ) : Prop :=
  LookedUp base app ∧ app.matcher.context.introducerArmed = false

variable {since : TimePoint}

theorem Waiting.release (h : Waiting base app since) (code : RawKeyCode) (now : TimePoint) :
    Waiting base (app.processKeyEvent runner ⟨code, .released, now⟩) since := by
  have hstate : app.matcher.context.state = .capturing := h.capturing
  have hfeed : app.matcher.processKeyEvent code .released =
      app.matcher.handleCapturingRelease code := by
    unfold SequenceMatcher.processKeyEvent
    rw [hstate]
  rw [processKeyEvent, hfeed]
  exact ⟨⟨hstate, h.unarmed, h.isCapturing, h.lastKeyTime⟩, h.hotInterval, h.sequence, h.calls⟩

theorem Waiting.check_soon (h : Waiting base app since) {now : TimePoint}
    (hsoon : millisecondsOf (now - since) < base.hotInterval) : app.checkTimer runner now = app := by
  rw [← h.lastKeyTime, ← h.hotInterval] at hsoon
  rw [checkTimer, if_neg (by rw [h.isCapturing]; decide), if_pos hsoon]

theorem findAction_completeCalls (runner : CommandRunner) (app : Application δ) (sequence : KeySequence) :
    ∃ before after, completeCalls runner app sequence = before ++ .findAction sequence :: after := by
  refine ⟨app.releaseCalls ++ [.hideStatus],
    (matchCalls runner (app.releaseCapture.perform .hideStatus) sequence).tail, ?_⟩
  rw [completeCalls, List.append_assoc]
  rfl

/-- A completed match of the keys of `base` is its end. -/
theorem over_handleCompletedMatch {result : MatcherResult}
    (hseq : result.sequence = base.matcher.currentSequence) (hcalls : app.calls = base.calls)
    (hidle : app.matcher.state = .idle) (hunarmed : app.matcher.context.introducerArmed = false) :
    Over base (app.handleCompletedMatch runner result) := by
  have hmatcher := (handleCompletedMatch_fields runner app result).1
  have hacts := handleCompletedMatch_acts runner app result
  obtain ⟨before, after, hlookup⟩ := findAction_completeCalls runner app result.sequence
  refine ⟨⟨?_, before, after, ?_⟩, ?_⟩
  · rw [hmatcher]
    exact hidle
  · rw [hacts.calls, hlookup, hseq, hcalls]
  · rw [hmatcher]
    exact hunarmed

theorem Waiting.check_over (h : Waiting base app since) {now : TimePoint}
    (hover : ¬ millisecondsOf (now - since) < base.hotInterval) :
    Over base (app.checkTimer runner now) := by
  rw [← h.lastKeyTime, ← h.hotInterval] at hover
  rw [checkTimer, if_neg (by rw [h.isCapturing]; decide), if_neg hover, timeOut,
    SequenceMatcher.onTimeout_capturing h.capturing]
  exact over_handleCompletedMatch h.sequence h.calls rfl h.unarmed

theorem Over.tick (h : Over base app) {t : Tick} (ht : t.isPress = false) :
    Over base (app.tick runner t) := by
  obtain ⟨⟨hidle, before, after, hcalls⟩, hunarmed⟩ := h
  obtain ⟨cs, hacts⟩ := (tick_moves runner app t).1
  have hlooked : ∃ before after, (app.tick runner t).calls =
      base.calls ++ (before ++ .findAction base.matcher.currentSequence :: after) := by
    refine ⟨before, after ++ cs, ?_⟩
    rw [hacts.calls, hcalls]
    simp only [List.append_assoc, List.cons_append]
  have hmatcher : (app.tick runner t).matcher.state = .idle ∧
      (app.tick runner t).matcher.context.introducerArmed = false := by
    have hstate : app.matcher.context.state = .idle := hidle
    cases t with
    | key event =>
      rcases event with ⟨code, _ | _, now⟩
      · exact nomatch ht
      · rw [Application.tick, processKeyEvent_matcher]
        simp [SequenceMatcher.feed, SequenceMatcher.processKeyEvent, SequenceMatcher.handleIdleRelease,
          SequenceMatcher.state, hstate, hunarmed]
    | check now =>
      rcases checkTimer_matcher runner app now with hsame | hfeed
      · rw [Application.tick, hsame]
        exact ⟨hidle, hunarmed⟩
      · rw [Application.tick, hfeed, SequenceMatcher.feed, SequenceMatcher.onTimeout_idle hidle]
        exact ⟨hidle, hunarmed⟩
  exact ⟨⟨hmatcher.1, hlooked⟩, hmatcher.2⟩

theorem Over.run (h : Over base app) {mid : List Tick} (hmid : ∀ t ∈ mid, t.isPress = false) :
    Over base (Runs.run (Application.tick runner) app mid) := by
  induction mid generalizing app with
  | nil => exact h
  | cons t mid ih =>
    have ht : t.isPress = false := hmid t List.mem_cons_self
    exact ih (h.tick ht) fun t' ht' => hmid t' (List.mem_cons_of_mem t ht')

theorem checkedIn_cons {hotInterval : UInt32} {t : Tick} {mid : List Tick}
    (ht : ∀ now, t = .check now → millisecondsOf (now - since) < hotInterval) :
    CheckedIn hotInterval since (t :: mid) ↔ CheckedIn hotInterval since mid := by
  constructor
  · rintro ⟨now, hmem, hle⟩
    rcases List.mem_cons.mp hmem with heq | hmem
    · exact absurd (ht now heq.symm) (UInt32.not_lt.mpr hle)
    · exact ⟨now, hmem, hle⟩
  · rintro ⟨now, hmem, hle⟩
    exact ⟨now, List.mem_cons_of_mem t hmem, hle⟩

/-- **A stretch without presses.** The capture is over if the timer is looked at
when the interval is, and waits if it is not. -/
theorem run_waiting (runner : CommandRunner) {mid : List Tick} (hmid : ∀ t ∈ mid, t.isPress = false)
    (h : Waiting base app since) :
    (CheckedIn base.hotInterval since mid → Over base (Runs.run (Application.tick runner) app mid)) ∧
      (¬ CheckedIn base.hotInterval since mid →
        Waiting base (Runs.run (Application.tick runner) app mid) since) := by
  induction mid generalizing app with
  | nil =>
    refine ⟨fun hchecked => ?_, fun _ => h⟩
    obtain ⟨now, hmem, -⟩ := hchecked
    exact nomatch hmem
  | cons t mid ih =>
    have hrest : ∀ t ∈ mid, t.isPress = false := fun t' ht' => hmid t' (List.mem_cons_of_mem t ht')
    cases t with
    | key event =>
      rcases event with ⟨code, _ | _, now⟩
      · exact nomatch hmid _ List.mem_cons_self
      · have hkey : ∀ now', Tick.key ⟨code, .released, now⟩ = .check now' →
            millisecondsOf (now' - since) < base.hotInterval := fun _ heq => nomatch heq
        rw [checkedIn_cons hkey]
        exact ih hrest (h.release code now)
    | check now =>
      by_cases hsoon : millisecondsOf (now - since) < base.hotInterval
      · have hsame : app.tick runner (.check now) = app := h.check_soon hsoon
        rw [checkedIn_cons (fun now' heq => by rwa [← Tick.check.inj heq]), Runs.run_cons, hsame]
        exact ih hrest h
      · have hover : Over base (app.tick runner (.check now)) := h.check_over hsoon
        have hchecked : CheckedIn base.hotInterval since (.check now :: mid) :=
          ⟨now, List.mem_cons_self, UInt32.not_lt.mp hsoon⟩
        exact ⟨fun _ => hover.run hrest, fun hnot => absurd hchecked hnot⟩

/-! ### Runs -/

/-- A key of a capture leaves the application waiting for the next. -/
theorem Sound.inCapture (h : Sound app) {key : KeyEvent} (hkey : IsCaptureKey app key) :
    InCapture (app.processKeyEvent runner key) key.now := by
  have hstep := SequenceMatcher.feed_step app.matcher (.key key.code key.type)
  have hfeed : app.matcher.feed (.key key.code key.type) =
      app.matcher.processKeyEvent key.code key.type := rfl
  have hmatcher := processKeyEvent_matcher runner app key
  have hnext : Sound (app.processKeyEvent runner key) := h.tick (.key key)
  rw [hfeed] at hstep hmatcher
  unfold IsCaptureKey at hkey
  have hcapturing : (app.processKeyEvent runner key).matcher.state = .capturing := by
    rw [hmatcher]
    rcases hstep.answer with ⟨htype, -⟩ | ⟨-, -, hafter⟩ | ⟨-, -, hafter⟩ | ⟨htype, -⟩
    · rw [htype] at hkey
      exact absurd hkey (by decide)
    · exact hafter
    · exact hafter
    · rw [htype] at hkey
      exact absurd hkey (by decide)
  refine ⟨hcapturing, hnext.unarmed hcapturing, hnext.held.matcher hcapturing, ?_⟩
  unfold processKeyEvent processResult
  rcases hkey with htype | htype
  · simp only [htype]
    rfl
  · simp only [htype]
    rfl

theorem Sound.lookedUp_iff (h : Sound app) {pre mid : List Tick} {key : KeyEvent}
    (hkey : IsCaptureKey (Runs.run (Application.tick runner) app pre) key) (hmid : ∀ t ∈ mid, t.isPress = false) :
    LookedUp (Runs.run (Application.tick runner) app (pre ++ [.key key]))
        (Runs.run (Application.tick runner) app (pre ++ .key key :: mid)) ↔
      CheckedIn app.hotInterval key.now mid := by
  have hin : InCapture (Runs.run (Application.tick runner) app (pre ++ [.key key])) key.now := by
    rw [Runs.run_append]
    exact (h.run pre).inCapture hkey
  have hinterval := hotInterval_run runner app (pre ++ [.key key])
  have hsplit : Runs.run (Application.tick runner) app (pre ++ .key key :: mid) =
      Runs.run (Application.tick runner) (Runs.run (Application.tick runner) app (pre ++ [.key key])) mid := by
    rw [← Runs.run_append, List.append_assoc]
    rfl
  obtain ⟨hover, hwait⟩ := run_waiting runner hmid
    (⟨hin, rfl, rfl, rfl⟩ : Waiting _ (Runs.run (Application.tick runner) app (pre ++ [.key key])) key.now)
  rw [hinterval] at hover hwait
  rw [hsplit]
  constructor
  · intro hlooked
    by_contra hnot
    have hstate := (hwait hnot).capturing
    rw [hlooked.idle] at hstate
    exact nomatch hstate
  · exact fun hchecked => (hover hchecked).1

/-- **When the hot interval is enforced.** In steps taken in any state a run
reaches, a capture has been completed with the keys before it whenever a late
key is delivered, if and only if the timer is looked at before every late key
when the interval is over. -/
theorem enforced_iff (runner : CommandRunner) (display : δ) (font : FontRenderer)
    (configDirectory : Str) (dir : Directory) (is : List AppInput) (polls : List Poll) :
    HotIntervalEnforced runner ((new display font configDirectory dir).after runner is)
        (polls.flatMap Poll.ticks) ↔
      TimerChecked runner ((new display font configDirectory dir).after runner is)
        (polls.flatMap Poll.ticks) := by
  have hsound := sound_after runner display font configDirectory dir is
  constructor
  · intro h pre key mid press hlate
    exact (hsound.lookedUp_iff hlate.captured hlate.next).mp (h pre key mid press hlate)
  · intro h pre key mid press hlate
    exact (hsound.lookedUp_iff hlate.captured hlate.next).mpr (h pre key mid press hlate)

/-- Shift is tapped; the timer is looked at 10 ms before the interval is over, and
Q is pressed 10 ms after, during the next poll. -/
def lateKey : List Poll :=
  [⟨[⟨kpkeyShift, .pressed, 0⟩, ⟨kpkeyShift, .released, 0⟩], 0⟩, ⟨[], 690000000⟩,
    ⟨[⟨kpkeyQ, .pressed, 710000000⟩], 710000000⟩]

/-- The capture is still on when Q is delivered. -/
theorem not_enforced_lateKey :
    ¬ ∀ (runner : CommandRunner) (display : MockDisplay) (font : FontRenderer)
      (configDirectory : Str) (dir : Directory) (polls : List Poll),
      HotIntervalEnforced runner (new display font configDirectory dir) (polls.flatMap Poll.ticks) := by
  intro hall
  have henforced := hall (fun _ _ => 0) (.new ⟨1, 1, 4⟩) ⟨fun _ => 0⟩ [] noFiles lateKey
  have hlate : LatePress (fun _ _ => 0) (new (MockDisplay.new ⟨1, 1, 4⟩) ⟨fun _ => 0⟩ [] noFiles)
      (lateKey.flatMap Poll.ticks) [.key ⟨kpkeyShift, .pressed, 0⟩] ⟨kpkeyShift, .released, 0⟩
      [.check 0, .check 690000000] ⟨kpkeyQ, .pressed, 710000000⟩ := by
    refine ⟨⟨[.check 710000000], by decide⟩, Or.inl (by decide +kernel), by decide, rfl, ?_⟩
    decide +kernel
  have hlooked := henforced _ _ _ _ hlate
  have hcapturing : (Runs.run (tick fun _ _ => 0)
      (new (MockDisplay.new ⟨1, 1, 4⟩) ⟨fun _ => 0⟩ [] noFiles)
      ([.key ⟨kpkeyShift, .pressed, 0⟩] ++ .key ⟨kpkeyShift, .released, 0⟩ ::
        [.check 0, .check 690000000])).matcher.state = .capturing := by decide +kernel
  rw [hlooked.idle] at hcapturing
  exact nomatch hcapturing

end Application
end Launchpad
