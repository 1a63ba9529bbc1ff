/-
# Bindings fire

A configured binding is typed by tapping the introducer, then its keys, each
soon after the one before, and then the trailer, or by waiting. `Schedule` is
such a typing, with every reading of the clock in it; the steps the application
takes may group its events in any way.

Typing in a capture collects the substituted codes of the keys
(`At.tap_keys`), and the end of the capture executes what the registry has
for them (`At.play`). The registry has the action of the first entry of a
sequence under the codes of its names (`findAction_new`). So a binding fires
whenever it is typed if none of its keys is the trailer or a code that is
substituted by another (`binding_fires`).
-/
import Launchpad.CaptureMode

namespace Launchpad

open KeyCodes

/-! ### The registry after a scan -/

namespace Application

theorem lookup_registerEntry (keyTable : KeyTable) (scriptDirectory : Str) (r : ActionRegistry)
    (entry : IniEntry) (s : KeySequence) :
    (registerEntry keyTable scriptDirectory r entry).actions.lookup s =
      (r.actions.lookup s).or
        (if ActionParser.parseSequence entry.key keyTable = some s then
          some (ActionParser.parseCommand entry.value entry.key scriptDirectory) else none) := by
  unfold registerEntry
  cases hparse : ActionParser.parseSequence entry.key keyTable with
  | none => simp
  | some sequence =>
    simp only [ActionRegistry.lookup_registerAction, Option.some.injEq]
    congr 1
    exact if_congr eq_comm rfl rfl

@[simp] theorem registerEntry_screenshotSequence (keyTable : KeyTable) (scriptDirectory : Str)
    (r : ActionRegistry) (entry : IniEntry) :
    (registerEntry keyTable scriptDirectory r entry).screenshotSequence = r.screenshotSequence := by
  unfold registerEntry
  split
  · exact ActionRegistry.registerAction_screenshotSequence _ _ _
  · rfl

theorem registerEntries_screenshotSequence (keyTable : KeyTable) (scriptDirectory : Str) :
    ∀ (entries : List IniEntry) (r : ActionRegistry),
      (entries.foldl (registerEntry keyTable scriptDirectory) r).screenshotSequence =
        r.screenshotSequence
  | [], _ => rfl
  | entry :: entries, r => by
    rw [List.foldl_cons, registerEntries_screenshotSequence keyTable scriptDirectory entries,
      registerEntry_screenshotSequence]

/-- A sequence has the action of the first entry that parses to it. -/
theorem lookup_registerEntries (keyTable : KeyTable) (scriptDirectory : Str) (s : KeySequence) :
    ∀ (entries : List IniEntry) (r : ActionRegistry),
      (entries.foldl (registerEntry keyTable scriptDirectory) r).actions.lookup s =
        (r.actions.lookup s).or
          ((entries.find? fun e => ActionParser.parseSequence e.key keyTable = some s).map fun e =>
            ActionParser.parseCommand e.value e.key scriptDirectory)
  | [], r => by simp
  | entry :: entries, r => by
    rw [List.foldl_cons, lookup_registerEntries keyTable scriptDirectory s entries,
      lookup_registerEntry, Option.or_assoc]
    congr 1
    by_cases hparse : ActionParser.parseSequence entry.key keyTable = some s
    · rw [if_pos hparse, List.find?_cons_of_pos (by simpa using hparse)]
      rfl
    · rw [if_neg hparse, List.find?_cons_of_neg (by simpa using hparse)]
      rfl

variable {δ : Type*} [IDisplay δ] (display : δ) (font : FontRenderer) (configDirectory : Str)
  (dir : Directory)

omit [IDisplay δ] in
theorem findAction_new_eq (s : KeySequence) :
    (new display font configDirectory dir).registry.findAction s =
      if s = [kpkeyShift, kpkeyShift] then some ⟨"[Screenshot]".toList, .screenshot⟩
      else ((ConfigScanner.scanDirectory configDirectory dir).actions.find? fun e =>
        ActionParser.parseSequence e.key .new = some s).map fun e => ActionParser.parseCommand e.value
          e.key (ConfigScanner.scanDirectory configDirectory dir).settings.scriptDirectory := by
  have hregistry : (new display font configDirectory dir).registry =
      (ConfigScanner.scanDirectory configDirectory dir).actions.foldl
        (registerEntry .new (ConfigScanner.scanDirectory configDirectory dir).settings.scriptDirectory)
        ({} : ActionRegistry).clear := rfl
  rw [hregistry, ActionRegistry.findAction, registerEntries_screenshotSequence,
    lookup_registerEntries, ActionRegistry.lookup_clear, Option.none_or]
  rfl

omit [IDisplay δ] in
/-- The first entry of an unreserved sequence is found. -/
theorem findAction_new {pre post : List IniEntry} {entry : IniEntry} {s : KeySequence}
    (hactions : (ConfigScanner.scanDirectory configDirectory dir).actions = pre ++ entry :: post)
    (hparse : ActionParser.parseSequence entry.key .new = some s)
    (hreserved : s ≠ [kpkeyShift, kpkeyShift])
    (hfirst : ∀ e ∈ pre, ActionParser.parseSequence e.key .new ≠ some s) :
    (new display font configDirectory dir).registry.findAction s =
      some (ActionParser.parseCommand entry.value entry.key
        (ConfigScanner.scanDirectory configDirectory dir).settings.scriptDirectory) := by
  rw [findAction_new_eq, if_neg hreserved, hactions, List.find?_append,
    List.find?_eq_none.mpr (by simpa using hfirst), Option.none_or,
    List.find?_cons_of_pos (by simpa using hparse)]
  rfl

end Application

/-! ### Typing a binding -/

/-- What the application does one at a time: process a key event, or look at the
timer. -/
inductive Tick
  | key (event : KeyEvent)
  | check (now : TimePoint)
  deriving DecidableEq

/-- The ticks of a step. -/
def Poll.ticks (poll : Poll) : List Tick := poll.events.map .key ++ [.check poll.now]

/-- A key pressed and released, with the readings of the timer that fall before
the press and while the key is held. -/
structure Tap where
  wait : List TimePoint := []
  code : RawKeyCode
  press : TimePoint
  held : List TimePoint := []
  release : TimePoint
  deriving DecidableEq

def Tap.ticks (k : Tap) : List Tick :=
  k.wait.map .check ++ (.key ⟨k.code, .pressed, k.press⟩ ::
    (k.held.map .check ++ [.key ⟨k.code, .released, k.release⟩]))

/-- The trailer is tapped, or the timer is looked at when it is late enough. -/
inductive Ending
  | trailer (tap : Tap)
  | timeout (wait : List TimePoint) (now : TimePoint)
  deriving DecidableEq

def Ending.ticks : Ending → List Tick
  | .trailer tap => tap.ticks
  | .timeout wait now => wait.map .check ++ [.check now]

/-- A binding being typed: the introducer, the keys, the end, and readings of
the timer after it. -/
structure Schedule where
  introducer : Tap
  keys : List Tap
  ending : Ending
  rest : List TimePoint := []
  deriving DecidableEq

def Schedule.ticks (sch : Schedule) : List Tick :=
  sch.introducer.ticks ++ (sch.keys.flatMap Tap.ticks ++ (sch.ending.ticks ++ sch.rest.map .check))

/-- A reading within the interval after `last`. -/
def Within (hotInterval : UInt32) (last t : ℤ) : Prop :=
  last ≤ t ∧ t - last < hotInterval.toNat * 1000000

/-- The key is tapped within the interval, and the timer does not run out on it. -/
structure Tap.Soon (hotInterval : UInt32) (last : TimePoint) (k : Tap) : Prop where
  wait : ∀ t ∈ k.wait, Within hotInterval last t
  press : Within hotInterval last k.press
  held : ∀ t ∈ k.held, Within hotInterval k.press t

/-- Every key is tapped within the interval after the one before. -/
def AllSoon (hotInterval : UInt32) : TimePoint → List Tap → Prop
  | _, [] => True
  | last, k :: ks => k.Soon hotInterval last ∧ AllSoon hotInterval k.press ks

/-- The reading at the last press. -/
def lastPress : TimePoint → List Tap → TimePoint
  | last, [] => last
  | _, k :: ks => lastPress k.press ks

/-- The trailer is tapped within the interval, or the interval is over (and is
less than 2³² ms ago) when the timer is looked at. -/
def Ending.Ends (hotInterval : UInt32) (trailer : RawKeyCode) (last : TimePoint) : Ending → Prop
  | .trailer tap => tap.code = trailer ∧ (∀ t ∈ tap.wait, Within hotInterval last t) ∧
      Within hotInterval last tap.press
  | .timeout wait now => (∀ t ∈ wait, Within hotInterval last t) ∧
      hotInterval.toNat * 1000000 ≤ now - last ∧ now - last < 4294967296 * 1000000

/-- The actions executed by the calls, in order. -/
def executed (calls : List Call) : List Action :=
  calls.filterMap fun
    | .execute action => some action
    | _ => none

@[simp] theorem executed_append (calls calls' : List Call) :
    executed (calls ++ calls') = executed calls ++ executed calls' := List.filterMap_append

theorem executed_of_injections {calls : List Call} (h : ∀ c ∈ calls, c.isInjection = true) :
    executed calls = [] := by
  apply List.filterMap_eq_nil_iff.mpr
  intro c hc
  have hinj := h c hc
  cases c with
  | execute action => exact nomatch hinj
  | _ => rfl

/-- The executor executes no other action. -/
theorem executed_execute (e : ActionExecutor) (before : List Call) (action : Action) :
    executed (e.execute before action) = [] := by
  have hnotify : ∀ calls, executed calls = [] → executed (e.notify calls) = [] := by
    intro calls h
    unfold ActionExecutor.notify
    split_ifs
    · exact h
    · rfl
  unfold ActionExecutor.execute
  cases action.payload with
  | shell command =>
    have hrun : ∀ calls, executed (.runCommand command :: calls) = executed calls := fun _ => rfl
    simp only [ActionExecutor.executeShell]
    rw [executed_append, hnotify _ rfl, hrun, hnotify _ rfl]
    rfl
  | sendKeys keys =>
    have hkeys : executed ((Words.words isspace keys).flatMap
        (ActionExecutor.sendToken e.keyTable)) = [] := by
      apply executed_of_injections
      intro c hc
      obtain ⟨w, _, hw⟩ := List.mem_flatMap.mp hc
      exact ActionExecutor.injection_of_mem_sendToken hw
    simp only [ActionExecutor.executeSendKeys]
    rw [executed_append, hkeys, hnotify _ rfl]
    rfl
  | screenshot => exact hnotify _ rfl
  | script scriptPath => rfl
  | kindleKeys keys => rfl

namespace Application

variable {δ : Type*} [IDisplay δ]

def tick (runner : CommandRunner) (app : Application δ) : Tick → Application δ
  | .key event => app.processKeyEvent runner event
  | .check now => app.checkTimer runner now

theorem step_eq_ticks (runner : CommandRunner) (app : Application δ) (poll : Poll) :
    app.step runner poll = Runs.run (tick runner) app poll.ticks := by
  have hevents : Runs.run (tick runner) app (poll.events.map .key) =
      poll.events.foldl (processKeyEvent runner) app := by
    rw [Runs.run, List.foldl_map]
    rfl
  rw [Poll.ticks, Runs.run_append, hevents]
  rfl

theorem after_steps (runner : CommandRunner) (app : Application δ) (polls : List Poll) :
    app.after runner (polls.map .step) = Runs.run (tick runner) app (polls.flatMap Poll.ticks) := by
  induction polls generalizing app with
  | nil => rfl
  | cons poll polls ih =>
    rw [List.map_cons, List.flatMap_cons, Runs.run_append, ← step_eq_ticks, ← ih]
    rfl

/-- The schedule types the sequence, after the introducer of the application and
before its trailer or timeout. -/
structure Types (app : Application δ) (sch : Schedule) (s : KeySequence) : Prop where
  introducer : sch.introducer.code = app.matcher.config.introducer
  keys : sch.keys.map Tap.code = s
  soon : AllSoon app.hotInterval sch.introducer.release sch.keys
  ending : sch.ending.Ends app.hotInterval app.matcher.config.trailer
    (lastPress sch.introducer.release sch.keys)

/-! ### One tick

`At base ctx last actions app`: on the configuration of `base`, the matcher is
in `ctx`, a capture is on since the key at `last`, if there is one, and `actions`
have been executed. -/

structure At (base : Application δ) (ctx : MatcherContext) (last : Option TimePoint)
    (actions : List Action) (app : Application δ) : Prop where
  matcher : app.matcher = ⟨base.matcher.config, ctx⟩
  hotInterval : app.hotInterval = base.hotInterval
  registry : app.registry = base.registry
  isCapturing : app.isCapturing = last.isSome
  lastKeyTime : ∀ t, last = some t → app.lastKeyTime = t
  done : executed app.calls = actions

variable (runner : CommandRunner) {base app : Application δ} {ctx ctx' : MatcherContext}
  {last : Option TimePoint} {actions : List Action}

theorem executed_completeCalls (app : Application δ) (sequence : KeySequence) :
    executed (completeCalls runner app sequence) = (app.registry.findAction sequence).toList := by
  have hrelease : executed app.releaseCalls = [] := by
    unfold releaseCalls
    split_ifs <;> rfl
  have hregistry : (app.releaseCapture.perform .hideStatus).registry = app.registry := by
    unfold releaseCapture
    split_ifs <;> rfl
  have hskip : ∀ (c : Call) (calls : List Call), executed [c] = [] →
      executed (c :: calls) = executed calls := by
    intro c calls hc
    rw [← List.singleton_append, executed_append, hc, List.nil_append]
  rw [completeCalls, executed_append, hrelease, List.nil_append, hskip _ _ rfl, matchCalls, hskip _ _ rfl,
    hregistry]
  cases app.registry.findAction sequence with
  | none => rfl
  | some action =>
    have hexecute : ∀ calls, executed (.execute action :: calls) = action :: executed calls :=
      fun _ => rfl
    simp only [hexecute, executed_execute]
    rfl

/-- A completed match executes what the registry has for the sequence. -/
theorem At.complete (h : At base ctx last actions app) (result : MatcherResult) :
    At base ctx' none (actions ++ (base.registry.findAction result.sequence).toList)
      ({ app with matcher := ⟨base.matcher.config, ctx'⟩ }.handleCompletedMatch runner result) := by
  have hfields := handleCompletedMatch_fields runner
    { app with matcher := ⟨base.matcher.config, ctx'⟩ } result
  have hacts := handleCompletedMatch_acts runner
    { app with matcher := ⟨base.matcher.config, ctx'⟩ } result
  obtain ⟨hmatcher, hcapturing, hinterval, hregistry⟩ := hfields
  refine ⟨hmatcher, hinterval.trans h.hotInterval, hregistry.trans h.registry, hcapturing, nofun, ?_⟩
  rw [hacts.calls, executed_append, executed_completeCalls]
  simp only [h.done, h.registry]

/-- The state a key event leads to, by the answer of the matcher. -/
theorem At.key (h : At base ctx last actions app) {code : RawKeyCode} {type : KeyEventType}
    {result : MatcherResult} (now : TimePoint)
    (hfeed : SequenceMatcher.processKeyEvent ⟨base.matcher.config, ctx⟩ code type =
      (⟨base.matcher.config, ctx'⟩, result)) :
    app.processKeyEvent runner ⟨code, type, now⟩ =
      { app with matcher := ⟨base.matcher.config, ctx'⟩ }.processResult runner result now := by
  rw [processKeyEvent, h.matcher, hfeed]

omit [IDisplay δ] in
/-- A key event that is not answered. -/
theorem At.quiet (h : At base ctx last actions app) :
    At base ctx' last actions { app with matcher := ⟨base.matcher.config, ctx'⟩ } :=
  ⟨rfl, h.hotInterval, h.registry, h.isCapturing, h.lastKeyTime, h.done⟩

/-- A key of a capture. -/
theorem At.showCapture (h : At base ctx last actions app) (hlast : last.isSome) (now : TimePoint) :
    At base ctx (some now) actions (app.showCapture now) := by
  refine ⟨h.matcher, h.hotInterval, h.registry, h.isCapturing.trans hlast, fun t ht => ?_, ?_⟩
  · exact Option.some.inj ht
  · rw [(acts_showCapture app now).calls, executed_append, h.done]
    exact List.append_nil _

/-- A capture that starts. -/
theorem At.start (h : At base ctx none actions app) (now : TimePoint) :
    At base ctx (some now) actions (app.grabCapture.showCapture now) := by
  have hgrab : At base ctx (some app.grabCapture.lastKeyTime) actions app.grabCapture := by
    have hidle : ¬ app.isCapturing = true := by
      rw [h.isCapturing]
      nofun
    rw [grabCapture, if_neg hidle]
    refine ⟨h.matcher, h.hotInterval, h.registry, rfl, fun t ht => Option.some.inj ht, ?_⟩
    show executed (app.calls ++ [.grab]) = actions
    rw [executed_append, h.done]
    exact List.append_nil _
  exact hgrab.showCapture rfl now

/-! ### Looking at the timer -/

theorem At.check_idle (h : At base ctx none actions app) (now : TimePoint) :
    app.checkTimer runner now = app := by
  have hidle : app.isCapturing = false := h.isCapturing
  rw [checkTimer, if_pos hidle]

theorem At.check_soon {t : TimePoint} (h : At base ctx (some t) actions app) {now : TimePoint}
    (hnow : Within base.hotInterval t now) : app.checkTimer runner now = app := by
  have hcapturing : ¬ app.isCapturing = false := by
    rw [h.isCapturing]
    nofun
  have hlt : millisecondsOf (now - app.lastKeyTime) < app.hotInterval := by
    obtain ⟨hle, hsoon⟩ := hnow
    have hinterval : base.hotInterval.toNat < 4294967296 := base.hotInterval.toNat_lt
    rw [h.lastKeyTime t rfl, h.hotInterval, UInt32.lt_iff_toNat_lt,
      millisecondsOf_toNat (by omega) (by omega)]
    omega
  rw [checkTimer, if_neg hcapturing, if_pos hlt]

theorem At.checks_idle (h : At base ctx none actions app) (wait : List TimePoint) :
    Runs.run (tick runner) app (wait.map .check) = app := by
  induction wait with
  | nil => rfl
  | cons now wait ih =>
    rw [List.map_cons, Runs.run_cons, tick, h.check_idle runner now, ih]

theorem At.checks_soon {t : TimePoint} (h : At base ctx (some t) actions app) {wait : List TimePoint}
    (hwait : ∀ now ∈ wait, Within base.hotInterval t now) :
    Runs.run (tick runner) app (wait.map .check) = app := by
  induction wait with
  | nil => rfl
  | cons now wait ih =>
    rw [List.map_cons, Runs.run_cons, tick, h.check_soon runner (hwait now List.mem_cons_self)]
    exact ih fun now' hnow' => hwait now' (List.mem_cons_of_mem now hnow')

/-- The interval is over. -/
theorem At.check_late {t : TimePoint} {n : ℕ} {armed : Bool} {seq : KeySequence}
    (h : At base ⟨.capturing, n, armed, seq⟩ (some t) actions app) {now : TimePoint}
    (hlo : base.hotInterval.toNat * 1000000 ≤ now - t) (hhi : now - t < 4294967296 * 1000000) :
    At base ⟨.idle, n, armed, []⟩ none (actions ++ (base.registry.findAction seq).toList)
      (app.checkTimer runner now) := by
  have hcapturing : ¬ app.isCapturing = false := by
    rw [h.isCapturing]
    nofun
  have hlate : ¬ millisecondsOf (now - app.lastKeyTime) < app.hotInterval := by
    rw [h.lastKeyTime t rfl, h.hotInterval]
    exact not_millisecondsOf_lt hlo hhi
  rw [checkTimer, if_neg hcapturing, if_neg hlate, timeOut, h.matcher,
    SequenceMatcher.onTimeout_capturing rfl]
  exact h.complete runner { type := .sequenceComplete, sequence := seq }

/-! ### Tapping keys -/

/-- The ticks of a tap, one part after the other. -/
theorem run_tap (app : Application δ) (k : Tap) :
    Runs.run (tick runner) app k.ticks =
      (Runs.run (tick runner) ((Runs.run (tick runner) app (k.wait.map .check)).processKeyEvent runner
        ⟨k.code, .pressed, k.press⟩) (k.held.map .check)).processKeyEvent runner
          ⟨k.code, .released, k.release⟩ := by
  rw [Tap.ticks, Runs.run_append, Runs.run_cons, Runs.run_append]
  rfl

/-- The introducer starts a capture. -/
theorem At.tap_introducer (h : At base {} none actions app) {k : Tap}
    (hk : k.code = base.matcher.config.introducer) :
    At base ⟨.capturing, 0, false, []⟩ (some k.release) actions (Runs.run (tick runner) app k.ticks) := by
  have hpress : SequenceMatcher.processKeyEvent ⟨base.matcher.config, {}⟩ k.code .pressed =
      (⟨base.matcher.config, ⟨.idle, 1, true, []⟩⟩, {}) := by
    simp [SequenceMatcher.processKeyEvent, SequenceMatcher.handleIdlePress, hk]
  have hrelease : SequenceMatcher.processKeyEvent ⟨base.matcher.config, ⟨.idle, 1, true, []⟩⟩ k.code
      .released = (⟨base.matcher.config, ⟨.capturing, 0, false, []⟩⟩, { type := .startCapture }) := by
    simp [SequenceMatcher.processKeyEvent, SequenceMatcher.handleIdleRelease, hk]
  have hpressed : At base ⟨.idle, 1, true, []⟩ none actions
      (app.processKeyEvent runner ⟨k.code, .pressed, k.press⟩) := by
    rw [h.key runner k.press hpress]
    exact h.quiet
  rw [run_tap, h.checks_idle, hpressed.checks_idle, hpressed.key runner k.release hrelease]
  exact hpressed.quiet.start k.release

/-- A key that is not the trailer is collected. -/
theorem At.tap_key {t : TimePoint} {seq : KeySequence}
    (h : At base ⟨.capturing, 0, false, seq⟩ (some t) actions app) {k : Tap}
    (hsoon : k.Soon base.hotInterval t) (hk : k.code ≠ base.matcher.config.trailer) :
    At base ⟨.capturing, 0, false,
      seq ++ [SequenceMatcher.substituteCode base.matcher.config k.code]⟩ (some k.press) actions
      (Runs.run (tick runner) app k.ticks) := by
  have hpress : SequenceMatcher.processKeyEvent ⟨base.matcher.config, ⟨.capturing, 0, false, seq⟩⟩
      k.code .pressed = (⟨base.matcher.config, ⟨.capturing, 1, false,
        seq ++ [SequenceMatcher.substituteCode base.matcher.config k.code]⟩⟩,
        { type := .keyAppended,
          sequence := seq ++ [SequenceMatcher.substituteCode base.matcher.config k.code] }) := by
    simp [SequenceMatcher.processKeyEvent, SequenceMatcher.handleCapturingPress, hk]
  have hpressed : At base ⟨.capturing, 1, false,
      seq ++ [SequenceMatcher.substituteCode base.matcher.config k.code]⟩ (some k.press) actions
      (app.processKeyEvent runner ⟨k.code, .pressed, k.press⟩) := by
    rw [h.key runner k.press hpress]
    exact h.quiet.showCapture rfl k.press
  rw [run_tap, h.checks_soon runner hsoon.wait, hpressed.checks_soon runner hsoon.held,
    hpressed.key runner k.release rfl]
  exact hpressed.quiet

/-- Keys typed in a capture are collected with their substituted codes. -/
theorem At.tap_keys : ∀ (ks : List Tap) {app : Application δ} {t : TimePoint} {seq : KeySequence},
    At base ⟨.capturing, 0, false, seq⟩ (some t) actions app → AllSoon base.hotInterval t ks →
    base.matcher.config.trailer ∉ ks.map Tap.code →
    At base ⟨.capturing, 0, false,
      seq ++ (ks.map Tap.code).map (SequenceMatcher.substituteCode base.matcher.config)⟩
      (some (lastPress t ks)) actions (Runs.run (tick runner) app (ks.flatMap Tap.ticks))
  | [], app, t, seq, h, _, _ => by
    rw [List.map_nil, List.map_nil, List.append_nil]
    exact h
  | k :: ks, app, t, seq, h, hsoon, hnot => by
    rw [List.map_cons, List.mem_cons, not_or] at hnot
    have hk := h.tap_key runner hsoon.1 (Ne.symm hnot.1)
    have hks := At.tap_keys ks hk hsoon.2 hnot.2
    rw [List.append_assoc] at hks
    rw [List.flatMap_cons, Runs.run_append]
    exact hks

/-- A tap of the trailer ends the capture. -/
theorem At.tap_trailer {t : TimePoint} {seq : KeySequence}
    (h : At base ⟨.capturing, 0, false, seq⟩ (some t) actions app) {k : Tap}
    (hk : k.code = base.matcher.config.trailer)
    (hwait : ∀ now ∈ k.wait, Within base.hotInterval t now) :
    At base {} none (actions ++ (base.registry.findAction seq).toList)
      (Runs.run (tick runner) app k.ticks) := by
  have hpress : SequenceMatcher.processKeyEvent ⟨base.matcher.config, ⟨.capturing, 0, false, seq⟩⟩
      k.code .pressed = (⟨base.matcher.config, ⟨.idle, 1, false, []⟩⟩,
        { type := .sequenceComplete, sequence := seq }) := by
    simp [SequenceMatcher.processKeyEvent, SequenceMatcher.handleCapturingPress, hk]
  have hrelease : SequenceMatcher.processKeyEvent ⟨base.matcher.config, ⟨.idle, 1, false, []⟩⟩ k.code
      .released = (⟨base.matcher.config, {}⟩, {}) := by
    simp [SequenceMatcher.processKeyEvent, SequenceMatcher.handleIdleRelease]
  have hpressed : At base ⟨.idle, 1, false, []⟩ none
      (actions ++ (base.registry.findAction seq).toList)
      (app.processKeyEvent runner ⟨k.code, .pressed, k.press⟩) := by
    rw [h.key runner k.press hpress]
    exact h.complete runner { type := .sequenceComplete, sequence := seq }
  rw [run_tap, h.checks_soon runner hwait, hpressed.checks_idle, hpressed.key runner k.release hrelease]
  exact hpressed.quiet

/-- Another key, with no capture on, does nothing. -/
theorem At.tap_idle (h : At base {} none actions app) {k : Tap}
    (hk : k.code ≠ base.matcher.config.introducer) :
    At base {} none actions (Runs.run (tick runner) app k.ticks) := by
  have hpress : SequenceMatcher.processKeyEvent ⟨base.matcher.config, {}⟩ k.code .pressed =
      (⟨base.matcher.config, ⟨.idle, 1, false, []⟩⟩, {}) := by
    simp [SequenceMatcher.processKeyEvent, SequenceMatcher.handleIdlePress, hk]
  have hrelease : SequenceMatcher.processKeyEvent ⟨base.matcher.config, ⟨.idle, 1, false, []⟩⟩ k.code
      .released = (⟨base.matcher.config, {}⟩, {}) := by
    simp [SequenceMatcher.processKeyEvent, SequenceMatcher.handleIdleRelease]
  have hpressed : At base ⟨.idle, 1, false, []⟩ none actions
      (app.processKeyEvent runner ⟨k.code, .pressed, k.press⟩) := by
    rw [h.key runner k.press hpress]
    exact h.quiet
  rw [run_tap, h.checks_idle, hpressed.checks_idle, hpressed.key runner k.release hrelease]
  exact hpressed.quiet

/-- Either end of a capture executes what the registry has for its keys. -/
theorem At.ending {t : TimePoint} {seq : KeySequence}
    (h : At base ⟨.capturing, 0, false, seq⟩ (some t) actions app) {e : Ending}
    (he : e.Ends base.hotInterval base.matcher.config.trailer t) :
    At base {} none (actions ++ (base.registry.findAction seq).toList)
      (Runs.run (tick runner) app e.ticks) := by
  cases e with
  | trailer tap => exact h.tap_trailer runner he.1 he.2.1
  | timeout wait now =>
    rw [Ending.ticks, Runs.run_append, h.checks_soon runner he.1]
    exact h.check_late runner he.2.1 he.2.2

/-- An ending does nothing when the capture has ended already. -/
theorem At.ending_idle (h : At base {} none actions app)
    (htrailer : base.matcher.config.trailer ≠ base.matcher.config.introducer) {t : TimePoint}
    {e : Ending} (he : e.Ends base.hotInterval base.matcher.config.trailer t) :
    At base {} none actions (Runs.run (tick runner) app e.ticks) := by
  cases e with
  | trailer tap =>
    have htap : tap.code ≠ base.matcher.config.introducer := by
      rw [he.1]
      exact htrailer
    exact h.tap_idle runner htap
  | timeout wait now =>
    have hchecks : (Ending.timeout wait now).ticks = (wait ++ [now]).map .check := by
      rw [List.map_append]
      rfl
    rw [hchecks, h.checks_idle]
    exact h

/-! ### A binding is typed -/

/-- Typing keys none of which is the trailer executes what the registry has for
their substituted codes, and leaves the application as it was before. -/
theorem At.play (h : At base {} none actions app) {sch : Schedule} {s : KeySequence}
    (htypes : Types base sch s) (htrailer : base.matcher.config.trailer ∉ s) :
    At base {} none (actions ++ (base.registry.findAction
      (s.map (SequenceMatcher.substituteCode base.matcher.config))).toList)
      (Runs.run (tick runner) app sch.ticks) := by
  have hstart := h.tap_introducer runner htypes.introducer
  rw [← htypes.keys] at htrailer
  have hkeys := hstart.tap_keys runner sch.keys htypes.soon htrailer
  rw [htypes.keys, List.nil_append] at hkeys
  have hend := hkeys.ending runner htypes.ending
  rw [Schedule.ticks, Runs.run_append, Runs.run_append, Runs.run_append, hend.checks_idle]
  exact hend

omit [IDisplay δ] in
/-- The application is fresh. -/
theorem at_new (display : δ) (font : FontRenderer) (configDirectory : Str) (dir : Directory) :
    At (new display font configDirectory dir) {} none [] (new display font configDirectory dir) :=
  ⟨rfl, rfl, rfl, rfl, nofun, rfl⟩

/-- Some typing of the sequence executes the action and no other. -/
def Fires (runner : CommandRunner) (app : Application δ) (s : KeySequence) (action : Action) : Prop :=
  ∃ (sch : Schedule) (polls : List Poll), Types app sch s ∧ polls.flatMap Poll.ticks = sch.ticks ∧
    executed (app.after runner (polls.map .step)).calls = [action]

/-- Every typing of the sequence does. -/
def AlwaysFires (runner : CommandRunner) (app : Application δ) (s : KeySequence) (action : Action) :
    Prop :=
  ∀ (sch : Schedule) (polls : List Poll), Types app sch s →
    polls.flatMap Poll.ticks = sch.ticks →
    executed (app.after runner (polls.map .step)).calls = [action]

/-- A key tapped at time 0. -/
def instantTap (code : RawKeyCode) : Tap := { code, press := 0, release := 0 }

/-- A sequence typed at time 0, ended by the trailer. -/
def instant (introducer trailer : RawKeyCode) (s : KeySequence) : Schedule where
  introducer := instantTap introducer
  keys := s.map instantTap
  ending := .trailer (instantTap trailer)
  rest := [0]

/-- The one poll that returns all its events. -/
def instantPoll (introducer trailer : RawKeyCode) (s : KeySequence) : Poll where
  events := (introducer :: (s ++ [trailer])).flatMap fun c => [⟨c, .pressed, 0⟩, ⟨c, .released, 0⟩]
  now := 0

theorem instantPoll_ticks (introducer trailer : RawKeyCode) (s : KeySequence) :
    (instantPoll introducer trailer s).ticks = (instant introducer trailer s).ticks := by
  have htap : ∀ c, (instantTap c).ticks = [.key ⟨c, .pressed, 0⟩, .key ⟨c, .released, 0⟩] := fun _ => rfl
  simp [Poll.ticks, instantPoll, instant, Schedule.ticks, Ending.ticks, htap, List.flatMap_map,
    List.map_flatMap]

omit [IDisplay δ] in
theorem types_instant (app : Application δ) (hinterval : 0 < app.hotInterval) (s : KeySequence) :
    Types app (instant app.matcher.config.introducer app.matcher.config.trailer s) s := by
  have hpos : (0 : ℤ) < app.hotInterval.toNat * 1000000 := by
    have h := UInt32.lt_iff_toNat_lt.mp hinterval
    rw [UInt32.toNat_zero] at h
    omega
  have hwithin : Within app.hotInterval 0 0 := ⟨le_rfl, by omega⟩
  have hlast : ∀ s : KeySequence, lastPress 0 (s.map instantTap) = 0 := by
    intro s
    induction s with
    | nil => rfl
    | cons c s ih => exact ih
  refine ⟨rfl, by simp [instant, Function.comp_def, instantTap], ?_, ?_⟩
  · show AllSoon app.hotInterval 0 (s.map instantTap)
    induction s with
    | nil => trivial
    | cons c s ih => exact ⟨⟨nofun, hwithin, nofun⟩, ih⟩
  · show Ending.Ends _ _ (lastPress 0 (s.map instantTap)) _
    rw [hlast]
    exact ⟨rfl, nofun, hwithin⟩

/-- A sequence can be typed, so one that always fires fires. -/
theorem AlwaysFires.fires {app : Application δ} {s : KeySequence} {action : Action}
    (hinterval : 0 < app.hotInterval) (h : AlwaysFires runner app s action) :
    Fires runner app s action := by
  have htypes := types_instant app hinterval s
  have hpoll : [instantPoll app.matcher.config.introducer app.matcher.config.trailer s].flatMap
      Poll.ticks = (instant app.matcher.config.introducer app.matcher.config.trailer s).ticks :=
    (List.flatMap_singleton _ _).trans (instantPoll_ticks _ _ s)
  exact ⟨_, _, htypes, hpoll, h _ _ htypes hpoll⟩

/-- **Bindings fire.** Whatever is configured, an entry that is the first to bind
its unreserved sequence fires, whenever it is typed, if its keys are not the
trailer and are not substituted by others. -/
theorem binding_fires (display : δ) (font : FontRenderer) (configDirectory : Str) (dir : Directory)
    (pre post : List IniEntry) (entry : IniEntry) (s : KeySequence)
    (hactions : (ConfigScanner.scanDirectory configDirectory dir).actions = pre ++ entry :: post)
    (hparse : ActionParser.parseSequence entry.key .new = some s)
    (hreserved : s ≠ [kpkeyShift, kpkeyShift])
    (hfirst : ∀ e ∈ pre, ActionParser.parseSequence e.key .new ≠ some s)
    (htrailer : (new display font configDirectory dir).matcher.config.trailer ∉ s)
    (hcanonical : ∀ c ∈ s, KeyTable.new.getSubstituteCode c = c) :
    let action := ActionParser.parseCommand entry.value entry.key
      (ConfigScanner.scanDirectory configDirectory dir).settings.scriptDirectory
    Fires runner (new display font configDirectory dir) s action ∧
      AlwaysFires runner (new display font configDirectory dir) s action := by
  intro action
  have hsubst : s.map (SequenceMatcher.substituteCode
      (new display font configDirectory dir).matcher.config) = s :=
    (List.map_congr_left hcanonical).trans (List.map_id s)
  have halways : AlwaysFires runner (new display font configDirectory dir) s action := by
    intro sch polls htypes hpolls
    have hplay := (at_new display font configDirectory dir).play runner htypes htrailer
    rw [hsubst, findAction_new display font configDirectory dir hactions hparse hreserved hfirst]
      at hplay
    rw [after_steps, hpolls]
    exact hplay.done
  exact ⟨halways.fires runner (ConfigScanner.scanDirectory_hotInterval_pos configDirectory dir), halways⟩

/-- A directory with one file of that text. -/
def oneFile (text : Str) : Directory := ⟨["launchpad.ini".toList], fun _ => some text⟩

/-- `R = !sync` fires. -/
theorem binding_fires_r :
    Fires (fun _ _ => 0) (new (MockDisplay.new ⟨1, 1, 4⟩) ⟨fun _ => 0⟩ [] (oneFile
      "[Actions]\nR = !sync\n".toList)) [kpkeyR] ⟨"R".toList, .shell "sync".toList⟩ :=
  (binding_fires (fun _ _ => 0) (MockDisplay.new ⟨1, 1, 4⟩) ⟨fun _ => 0⟩ []
    (oneFile "[Actions]\nR = !sync\n".toList) [] [] ⟨"R".toList, "!sync".toList⟩ [kpkeyR]
    (by decide +kernel) (by decide +kernel) (by decide) nofun (by decide +kernel)
    (List.forall_mem_singleton.mpr (by decide +kernel))).1

/-- Every binding of the configuration can fire. -/
def EveryBindingFires (dir : Directory) : Prop :=
  ∀ (pre post : List IniEntry) (entry : IniEntry) (s : KeySequence),
    (ConfigScanner.scanDirectory [] dir).actions = pre ++ entry :: post →
    ActionParser.parseSequence entry.key .new = some s → s ≠ [kpkeyShift, kpkeyShift] →
    (∀ e ∈ pre, ActionParser.parseSequence e.key .new ≠ some s) →
    Fires (fun _ _ => 0) (new (MockDisplay.new ⟨1, 1, 4⟩) ⟨fun _ => 0⟩ [] dir) s
      (ActionParser.parseCommand entry.value entry.key
        (ConfigScanner.scanDirectory [] dir).settings.scriptDirectory)

/-- Neither a binding of a Kindle 3 key nor one of the trailer can fire. -/
theorem not_everyBindingFires :
    ¬ EveryBindingFires (oneFile "[Actions]\nk3_Home = !sync\n".toList) ∧
      ¬ EveryBindingFires (oneFile "[Actions]\nEnter = !sync\n".toList) := by
  constructor
  · intro hall
    obtain ⟨sch, polls, htypes, hpolls, hexecuted⟩ := hall [] []
      ⟨"k3_Home".toList, "!sync".toList⟩ [k3keyHome] (by decide +kernel) (by decide +kernel)
      (by decide) nofun
    have hplay := (at_new _ _ _ _).play (fun _ _ => 0) htypes (by decide +kernel)
    rw [after_steps, hpolls, hplay.done] at hexecuted
    revert hexecuted
    decide +kernel
  · intro hall
    obtain ⟨sch, polls, htypes, hpolls, hexecuted⟩ := hall [] []
      ⟨"Enter".toList, "!sync".toList⟩ [kpkeyEnter] (by decide +kernel) (by decide +kernel)
      (by decide) nofun
    obtain ⟨k, hkeys, hk⟩ : ∃ k, sch.keys = [k] ∧ k.code = kpkeyEnter :=
      List.map_eq_singleton_iff.mp htypes.keys
    have hsoon := htypes.soon
    rw [hkeys] at hsoon
    have hstart := (at_new _ _ _ _).tap_introducer (fun _ _ => 0) htypes.introducer
    have hkey := hstart.tap_trailer (fun _ _ => 0) hk hsoon.1.wait
    have hend := hkey.ending_idle (fun _ _ => 0) (by decide) htypes.ending
    rw [after_steps, hpolls, Schedule.ticks, Runs.run_append, Runs.run_append, Runs.run_append, hkeys,
      List.flatMap_singleton, hend.checks_idle, hend.done] at hexecuted
    revert hexecuted
    decide +kernel

end Application
end Launchpad
