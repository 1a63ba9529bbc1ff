/-
# Reloads

What an application binds and how it is typed is its `Configuration`. A step
leaves it, and a reload sets all of it, so after any run it is that of an
application constructed on the directory last read (`configuration_after`), and
its registry is the `[Actions]` entries of that directory, the first of each
sequence (`findAction_after`).

A reload leaves the capture of the application, the time of the last key and
the overlay. An application that has just been reloaded is `Alike` a fresh one:
where the fresh one captures, so does the other, since the same time; where only
the other captures, the matcher is idle and its timer does nothing to the world.
So from then on both run the same commands and inject the same keys
(`effects_reload`).
-/
import Launchpad.Bindings

namespace Launchpad

open KeyCodes

/-- What `load_configuration` reads and sets. -/
structure Configuration where
  keyTable : KeyTable
  configDirectory : Str
  registry : ActionRegistry
  hotInterval : UInt32
  matcher : MatcherConfig

namespace Application

variable {δ : Type*}

def configuration (app : Application δ) : Configuration where
  keyTable := app.keyTable
  configDirectory := app.configDirectory
  registry := app.registry
  hotInterval := app.hotInterval
  matcher := app.matcher.config

/-- An entry that resolves to no sequence leaves what the others register. -/
theorem registerEntries_unresolved {table : KeyTable} {entry : IniEntry}
    (h : ActionParser.Unresolved table entry.key) (scriptDirectory : Str) (pre post : List IniEntry)
    (r : ActionRegistry) :
    (pre ++ entry :: post).foldl (registerEntry table scriptDirectory) r =
      (pre ++ post).foldl (registerEntry table scriptDirectory) r := by
  have hentry : ∀ r, registerEntry table scriptDirectory r entry = r := by
    intro r
    rw [registerEntry, ActionParser.parseSequence_eq_none h]
  rw [List.foldl_append, List.foldl_append, List.foldl_cons, hentry]

end Application

/-- The directory last read after an input. -/
def AppInput.reads (dir : Directory) : AppInput → Directory
  | .step _ => dir
  | .reload dir' => dir'

/-- The directory last read: that of the last reload, or the one of the
constructor. -/
def lastDirectory (dir : Directory) (is : List AppInput) : Directory := Runs.run AppInput.reads dir is

namespace Application

variable {δ : Type*} [IDisplay δ] {runner : CommandRunner} {app : Application δ}

/-! ### The configuration of a run -/

theorem configuration_performAll (app : Application δ) (cs : List Call) :
    (app.performAll cs).configuration = app.configuration := by rw [performAll_eq]; rfl

theorem configuration_releaseCapture (app : Application δ) :
    app.releaseCapture.configuration = app.configuration := by
  unfold releaseCapture
  split_ifs <;> rfl

theorem configuration_handleCompletedMatch (app : Application δ) (result : MatcherResult) :
    (app.handleCompletedMatch runner result).configuration = app.configuration := by
  rw [handleCompletedMatch, executeMatch_eq, configuration_performAll]
  exact configuration_releaseCapture app

theorem configuration_processResult (app : Application δ) (result : MatcherResult) (now : TimePoint) :
    (app.processResult runner result now).configuration = app.configuration := by
  unfold processResult
  cases result.type with
  | none => rfl
  | startCapture =>
    show app.grabCapture.configuration = app.configuration
    unfold grabCapture
    split_ifs <;> rfl
  | keyAppended => rfl
  | sequenceComplete => exact configuration_handleCompletedMatch app result
  | cancelled => exact configuration_releaseCapture app

theorem configuration_processKeyEvent (app : Application δ) (event : KeyEvent) :
    (app.processKeyEvent runner event).configuration = app.configuration := by
  have hconfig : (app.matcher.processKeyEvent event.code event.type).1.config = app.matcher.config :=
    SequenceMatcher.feed_config app.matcher (.key event.code event.type)
  unfold processKeyEvent
  rw [configuration_processResult]
  simp only [configuration, hconfig]

theorem configuration_timeOut (app : Application δ) :
    (app.timeOut runner).configuration = app.configuration := by
  have hconfig : app.matcher.onTimeout.1.config = app.matcher.config :=
    SequenceMatcher.feed_config app.matcher .timeout
  have hupdate : ({ app with matcher := app.matcher.onTimeout.1 } : Application δ).configuration =
      app.configuration := by simp only [configuration, hconfig]
  unfold timeOut
  simp only
  split_ifs
  · rw [configuration_handleCompletedMatch, hupdate]
  · exact hupdate

theorem configuration_step (app : Application δ) (poll : Poll) :
    (app.step runner poll).configuration = app.configuration := by
  have hevents : (Runs.run (processKeyEvent runner) app poll.events).configuration =
      app.configuration :=
    Runs.run_inv _ (I := fun app' => app'.configuration = app.configuration)
      (fun app' event h => (configuration_processKeyEvent app' event).trans h) app _ rfl
  rw [← hevents]
  show (checkTimer runner _ poll.now).configuration = _
  unfold checkTimer
  split_ifs
  · rfl
  · rfl
  · exact configuration_timeOut _

omit [IDisplay δ] in
/-- Loading depends on the table and the directory, which are part of the
configuration, alone. -/
theorem configuration_loadConfiguration_congr {δ' : Type*} {app' : Application δ'}
    (h : app'.configuration = app.configuration) (dir : Directory) :
    (app'.loadConfiguration dir).configuration = (app.loadConfiguration dir).configuration := by
  have htable : app'.keyTable = app.keyTable := congrArg Configuration.keyTable h
  have hdirectory : app'.configDirectory = app.configDirectory :=
    congrArg Configuration.configDirectory h
  have hregistry : app'.registry = app.registry := congrArg Configuration.registry h
  simp only [configuration, loadConfiguration, htable, hdirectory, hregistry]

omit [IDisplay δ] in
/-- A loaded matcher is at its start. -/
theorem matcher_loadConfiguration (app : Application δ) (dir : Directory) :
    (app.loadConfiguration dir).matcher = ⟨(app.loadConfiguration dir).configuration.matcher, {}⟩ :=
  rfl

variable (display : δ) (font : FontRenderer) (configDirectory : Str)

omit [IDisplay δ] in
/-- Loading leaves nothing of the configuration loaded before. -/
theorem configuration_loadConfiguration_new (dir dir' : Directory) :
    ((new display font configDirectory dir).loadConfiguration dir').configuration =
      (new display font configDirectory dir').configuration := by
  have hclear : (new display font configDirectory dir).registry.clear = ({} : ActionRegistry).clear := by
    have hreserved : (new display font configDirectory dir).registry.screenshotSequence =
        ({} : ActionRegistry).screenshotSequence := registerEntries_screenshotSequence _ _ _ _
    simp only [ActionRegistry.clear, hreserved]
  have hclear' : ({} : ActionRegistry).clear = {} := rfl
  simp only [configuration, loadConfiguration, hclear]
  rfl

/-- **What is configured.** After any run the configuration is that of an
application constructed on the directory last read. -/
theorem configuration_after (dir : Directory) (is : List AppInput) :
    ((new display font configDirectory dir).after runner is).configuration =
      (new display font configDirectory (lastDirectory dir is)).configuration := by
  refine Runs.run_hist (feed runner) (s := new display font configDirectory dir)
    (H := fun is app => app.configuration =
      (new display font configDirectory (lastDirectory dir is)).configuration) rfl ?_ is
  intro pre i ih
  rw [lastDirectory, Runs.run_append]
  cases i with
  | step poll => exact (configuration_step _ poll).trans ih
  | reload dir' =>
    exact (configuration_loadConfiguration_congr ih dir').trans
      (configuration_loadConfiguration_new display font configDirectory _ dir')

/-! ### What is bound -/

/-- **What is bound.** After any run, an unreserved sequence has the action of
the first `[Actions]` entry of the directory last read whose key resolves to it,
and none if there is none; and entries that resolve to no sequence leave what
the others bind. -/
theorem findAction_after (dir : Directory) (is : List AppInput) {s : KeySequence}
    (hs : s ≠ [kpkeyShift, kpkeyShift]) :
    ((new display font configDirectory dir).after runner is).registry.findAction s =
        ((ConfigScanner.actionEntries configDirectory (lastDirectory dir is)).find? fun e =>
          ActionParser.parseSequence e.key .new = some s).map (fun e =>
            ActionParser.parseCommand e.value e.key (ConfigScanner.scanDirectory configDirectory
              (lastDirectory dir is)).settings.scriptDirectory) ∧
      ∀ (scriptDirectory : Str) (pre post : List IniEntry) (entry : IniEntry),
        ActionParser.Unresolved .new entry.key → ∀ r : ActionRegistry,
          (pre ++ entry :: post).foldl (registerEntry .new scriptDirectory) r =
            (pre ++ post).foldl (registerEntry .new scriptDirectory) r := by
  refine ⟨?_, fun scriptDirectory pre post entry h r =>
    registerEntries_unresolved h scriptDirectory pre post r⟩
  have hregistry : ((new display font configDirectory dir).after runner is).registry =
      (new display font configDirectory (lastDirectory dir is)).registry :=
    congrArg Configuration.registry (configuration_after display font configDirectory dir is)
  rw [hregistry, findAction_new_eq, if_neg hs, ConfigScanner.scanDirectory_actions]

/-- A directory with one file. -/
def withFile (name text : Str) : Directory where
  names := [name]
  read path := if path = "/".toList ++ name then some text else none

/-- A hotkey of an earlier configuration is gone, and the one of the last is there. -/
theorem findAction_after_reload :
    ((new (MockDisplay.new ⟨1, 1, 4⟩) ⟨fun _ => 0⟩ "/".toList
      (withFile "a.ini".toList "[Actions]\nR = !first\n".toList)).after (fun _ _ => 0)
        [.reload (withFile "b.ini".toList "[Actions]\nQ Nokey = !x\nQ = !a=#;b\n".toList)]
      ).registry.findAction [kpkeyQ] = some ⟨"Q".toList, .shell "a=#;b".toList⟩ :=
  (findAction_after (MockDisplay.new ⟨1, 1, 4⟩) ⟨fun _ => 0⟩ "/".toList _ _ (by decide)).1.trans
    (by decide +kernel)

/-! ### Effects

What a run does to the rest of the system is the commands it runs and the keys it
injects; the overlay and the grab are its own. -/

end Application

/-- The calls that run a command or inject a key. -/
def Call.isEffect : Call → Bool
  | .runCommand _ => true
  | .injectKey .. => true
  | .injectAsciiChar _ => true
  | _ => false

def effects (calls : List Call) : List Call := calls.filter Call.isEffect

@[simp] theorem effects_append (calls calls' : List Call) :
    effects (calls ++ calls') = effects calls ++ effects calls' := List.filter_append ..

/-- What an action does to the rest of the system depends on the keys alone. -/
theorem effects_execute (e e' : ActionExecutor) (htable : e.keyTable = e'.keyTable)
    (hnotifier : e.statusNotifier = e'.statusNotifier) (before before' : List Call)
    (action : Action) : effects (e.execute before action) = effects (e'.execute before' action) := by
  unfold ActionExecutor.execute
  cases action.payload with
  | shell command =>
    unfold ActionExecutor.executeShell ActionExecutor.notify
    rw [hnotifier]
    by_cases h : e'.statusNotifier = true
    · simp only [if_pos h]
      rfl
    · simp only [if_neg h]
  | sendKeys keys =>
    simp only [ActionExecutor.executeSendKeys, ActionExecutor.notify, htable, hnotifier]
  | screenshot => simp only [ActionExecutor.executeScreenshot, ActionExecutor.notify, hnotifier]
  | script scriptPath => rfl
  | kindleKeys keys => rfl

namespace Application

/-! ### A reloaded application and a fresh one -/

section Alike

variable {δ δ' : Type*} {runner runner' : CommandRunner}

/-- The application `app` behaves like `fresh`, after the effects `past`: it
captures since the same time if `fresh` does. -/
structure Alike (past : List Call) (fresh : Application δ) (app : Application δ') : Prop where
  matcher : app.matcher = fresh.matcher
  configuration : app.configuration = fresh.configuration
  capture : fresh.isCapturing = true →
    app.isCapturing = true ∧ app.lastKeyTime = fresh.lastKeyTime
  effects : effects app.calls = past ++ Launchpad.effects fresh.calls

variable {past : List Call} {fresh : Application δ} {app : Application δ'}

theorem Alike.keyTable (h : Alike past fresh app) : app.keyTable = fresh.keyTable :=
  congrArg Configuration.keyTable h.configuration

theorem Alike.registry (h : Alike past fresh app) : app.registry = fresh.registry :=
  congrArg Configuration.registry h.configuration

theorem Alike.hotInterval (h : Alike past fresh app) : app.hotInterval = fresh.hotInterval :=
  congrArg Configuration.hotInterval h.configuration

theorem Alike.withMatcher (h : Alike past fresh app) (matcher : SequenceMatcher) :
    Alike past { fresh with matcher } { app with matcher } where
  matcher := rfl
  configuration := by
    have hdirectory : app.configDirectory = fresh.configDirectory :=
      congrArg Configuration.configDirectory h.configuration
    simp only [Application.configuration, h.keyTable, hdirectory, h.registry, h.hotInterval]
  capture := h.capture
  effects := h.effects

/-- A match makes both do the same. -/
theorem Alike.effects_matchCalls (h : Alike past fresh app) (sequence : KeySequence) :
    Launchpad.effects (matchCalls runner' app sequence) =
      Launchpad.effects (matchCalls runner fresh sequence) := by
  unfold matchCalls
  rw [h.registry]
  cases fresh.registry.findAction sequence with
  | none => rfl
  | some action =>
    exact effects_execute (app.executor runner') (fresh.executor runner) h.keyTable rfl _ _ action

variable [IDisplay δ] [IDisplay δ']

/-- Both make calls of the same effects. -/
theorem Alike.performAll (h : Alike past fresh app) (cs cs' : List Call)
    (heffects : Launchpad.effects cs' = Launchpad.effects cs) :
    Alike past (fresh.performAll cs) (app.performAll cs') := by
  rw [performAll_eq, performAll_eq]
  refine ⟨h.matcher, h.configuration, h.capture, ?_⟩
  simp only [effects_append, h.effects, heffects, List.append_assoc]

theorem Alike.perform (h : Alike past fresh app) (c : Call) :
    Alike past (fresh.perform c) (app.perform c) := h.performAll [c] [c] rfl

/-- Only the reloaded one is left to end its capture. -/
theorem Alike.endCapture (h : Alike past fresh app) (cs : List Call)
    (hcs : Launchpad.effects cs = []) (hfresh : fresh.isCapturing = false) :
    Alike past fresh { app.performAll cs with isCapturing := false } := by
  have hperform : Alike past (fresh.performAll []) (app.performAll cs) := h.performAll [] cs hcs
  exact ⟨hperform.matcher, hperform.configuration,
    fun hcapturing => absurd (hfresh.symm.trans hcapturing) Bool.false_ne_true, hperform.effects⟩

theorem Alike.releaseCapture (h : Alike past fresh app) :
    Alike past fresh.releaseCapture app.releaseCapture := by
  unfold Application.releaseCapture
  by_cases hfresh : fresh.isCapturing = true
  · rw [if_pos hfresh, if_pos (h.capture hfresh).1]
    have hrelease := h.perform .release
    exact ⟨hrelease.matcher, hrelease.configuration, fun hc => absurd hc Bool.false_ne_true,
      hrelease.effects⟩
  · rw [if_neg hfresh]
    by_cases happ : app.isCapturing = true
    · rw [if_pos happ]
      exact h.endCapture [.release] rfl (by simpa using hfresh)
    · rw [if_neg happ]
      exact h

theorem Alike.handleCompletedMatch (h : Alike past fresh app) (result : MatcherResult) :
    Alike past (fresh.handleCompletedMatch runner result)
      (app.handleCompletedMatch runner' result) := by
  have hhide := h.releaseCapture.perform .hideStatus
  unfold Application.handleCompletedMatch
  rw [executeMatch_eq, executeMatch_eq]
  exact hhide.performAll _ _ (hhide.effects_matchCalls result.sequence)

theorem Alike.showCapture (h : Alike past fresh app) (now : TimePoint)
    (hcapturing : fresh.isCapturing = true → app.isCapturing = true) :
    Alike past (fresh.showCapture now) (app.showCapture now) := by
  have hshow := h.perform (.showStatus "^[...]".toList)
  exact ⟨hshow.matcher, hshow.configuration, fun hc => ⟨hcapturing hc, rfl⟩, hshow.effects⟩

/-- The start of a capture makes both capture, from now on. -/
theorem Alike.startCapture (h : Alike past fresh app) (now : TimePoint) :
    Alike past (fresh.grabCapture.showCapture now) (app.grabCapture.showCapture now) := by
  unfold grabCapture
  by_cases hfresh : fresh.isCapturing = true
  · have happ := (h.capture hfresh).1
    rw [if_pos hfresh, if_pos happ]
    exact h.showCapture now fun _ => happ
  · rw [if_neg hfresh]
    by_cases happ : app.isCapturing = true
    · rw [if_pos happ]
      have hshow := h.performAll [.grab, .showStatus "^[...]".toList]
        [.showStatus "^[...]".toList] rfl
      exact ⟨hshow.matcher, hshow.configuration, fun _ => ⟨happ, rfl⟩, hshow.effects⟩
    · rw [if_neg happ]
      have hshow := (h.perform .grab).perform (.showStatus "^[...]".toList)
      exact ⟨hshow.matcher, hshow.configuration, fun _ => ⟨rfl, rfl⟩, hshow.effects⟩

theorem Alike.processResult (h : Alike past fresh app) (result : MatcherResult) (now : TimePoint) :
    Alike past (fresh.processResult runner result now) (app.processResult runner' result now) := by
  unfold Application.processResult
  cases result.type with
  | none => exact h
  | startCapture => exact h.startCapture now
  | keyAppended => exact h.showCapture now fun hfresh => (h.capture hfresh).1
  | sequenceComplete => exact h.handleCompletedMatch result
  | cancelled => exact h.releaseCapture.perform .hideStatus

theorem Alike.processKeyEvent (h : Alike past fresh app) (event : KeyEvent) :
    Alike past (fresh.processKeyEvent runner event) (app.processKeyEvent runner' event) := by
  unfold Application.processKeyEvent
  rw [h.matcher]
  exact (h.withMatcher _).processResult _ event.now

/-- The interval of a capture of both is over. -/
theorem Alike.timeOut (h : Alike past fresh app) :
    Alike past (fresh.timeOut runner) (app.timeOut runner') := by
  unfold Application.timeOut
  rw [h.matcher]
  simp only
  split_ifs
  · exact (h.withMatcher _).handleCompletedMatch _
  · have hrelease := ((h.withMatcher fresh.matcher.onTimeout.1).perform .release).perform .hideStatus
    exact ⟨hrelease.matcher, hrelease.configuration, fun hc => absurd hc Bool.false_ne_true,
      hrelease.effects⟩

/-- The interval is over of a capture that only the reloaded one has: the matcher
is idle, and nothing happens. -/
theorem Alike.timeOut_idle (h : Alike past fresh app) (hfresh : fresh.isCapturing = false)
    (hidle : app.matcher.state = .idle) : Alike past fresh (app.timeOut runner') := by
  have hend := h.endCapture [.release, .hideStatus] rfl hfresh
  unfold Application.timeOut
  rw [SequenceMatcher.onTimeout_idle hidle]
  exact hend

theorem Alike.checkTimer (h : Alike past fresh app) (hheld : fresh.mode.Held) (now : TimePoint) :
    Alike past (fresh.checkTimer runner now) (app.checkTimer runner' now) := by
  unfold Application.checkTimer
  by_cases hfresh : fresh.isCapturing = true
  · obtain ⟨happ, htime⟩ := h.capture hfresh
    rw [hfresh, happ, htime, h.hotInterval]
    simp only [Bool.true_eq_false, if_false]
    split_ifs
    · exact h
    · exact h.timeOut
  · rw [Bool.not_eq_true] at hfresh
    rw [if_pos hfresh]
    have hidle : app.matcher.state = .idle := by
      rw [h.matcher]
      by_contra hne
      have hcapturing : fresh.matcher.state = .capturing := by
        cases hstate : fresh.matcher.state with
        | idle => exact absurd hstate hne
        | capturing => rfl
      exact absurd (hfresh.symm.trans (hheld.matcher hcapturing)) Bool.false_ne_true
    split_ifs
    · exact h
    · exact h
    · exact h.timeOut_idle hfresh hidle

theorem Alike.step (h : Alike past fresh app ∧ fresh.mode.Held) (poll : Poll) :
    Alike past (fresh.step runner poll) (app.step runner' poll) ∧
      (fresh.step runner poll).mode.Held := by
  have hevents := Runs.run_rel (Application.processKeyEvent runner)
    (Application.processKeyEvent runner')
    (R := fun fresh app => Alike past fresh app ∧ fresh.mode.Held)
    (fun fresh app event h =>
      ⟨h.1.processKeyEvent event, h.2.step (processKeyEvent_moves fresh event).2⟩)
    fresh app poll.events h
  exact ⟨hevents.1.checkTimer hevents.2 poll.now,
    hevents.2.step (checkTimer_moves _ poll.now).2⟩

theorem Alike.reload (h : Alike past fresh app ∧ fresh.mode.Held) (dir : Directory) :
    Alike past (fresh.reloadConfiguration dir) (app.reloadConfiguration dir) ∧
      (fresh.reloadConfiguration dir).mode.Held := by
  have hconfiguration := configuration_loadConfiguration_congr h.1.configuration dir
  have hload : Alike past (fresh.loadConfiguration dir) (app.loadConfiguration dir) :=
    ⟨by rw [matcher_loadConfiguration, matcher_loadConfiguration, hconfiguration], hconfiguration,
      h.1.capture, h.1.effects⟩
  refine ⟨hload.perform _, ?_⟩
  rw [reloadConfiguration_mode]
  exact h.2.reload

/-- Both go on alike. -/
theorem Alike.after (h : Alike past fresh app ∧ fresh.mode.Held) (is : List AppInput) :
    Alike past (fresh.after runner is) (app.after runner' is) := by
  refine (Runs.run_rel (feed runner) (feed runner')
    (R := fun fresh app => Alike past fresh app ∧ fresh.mode.Held) ?_ fresh app is h).1
  intro fresh app i h
  cases i with
  | step poll => exact Alike.step h poll
  | reload dir => exact Alike.reload h dir

variable (display : δ) (display' : δ') (font font' : FontRenderer) (configDirectory : Str)

omit [IDisplay δ] in
/-- An application reloaded at any point of a run is alike a fresh one. -/
theorem alike_reload (dir dir' : Directory) (is : List AppInput) :
    Alike (Launchpad.effects ((new display' font' configDirectory dir).after runner'
        (is ++ [.reload dir'])).calls)
      (new display font configDirectory dir')
      ((new display' font' configDirectory dir).after runner' (is ++ [.reload dir'])) := by
  have hconfiguration : ((new display' font' configDirectory dir).after runner'
      (is ++ [.reload dir'])).configuration = (new display font configDirectory dir').configuration := by
    rw [configuration_after, lastDirectory, Runs.run_append]
    rfl
  refine ⟨?_, hconfiguration, fun hc => absurd hc Bool.false_ne_true, (List.append_nil _).symm⟩
  have hreload : (new display' font' configDirectory dir).after runner' (is ++ [.reload dir']) =
      ((new display' font' configDirectory dir).after runner' is).reloadConfiguration dir' :=
    Runs.run_append _ _ _ _
  rw [hreload] at hconfiguration ⊢
  calc (((new display' font' configDirectory dir).after runner' is).loadConfiguration dir').matcher
      = ⟨(((new display' font' configDirectory dir).after runner' is).loadConfiguration
          dir').configuration.matcher, {}⟩ := matcher_loadConfiguration _ dir'
    _ = ⟨(new display font configDirectory dir').configuration.matcher, {}⟩ :=
        congrArg (fun c : Configuration => (⟨c.matcher, {}⟩ : SequenceMatcher)) hconfiguration

end Alike

/-- **A reload is a restart.** After a reload at any point of a run, whatever is
read from then on makes the application run the same commands and inject the
same keys as a fresh one on the directory reloaded. -/
theorem effects_reload {δ δ' : Type*} [IDisplay δ] [IDisplay δ'] (runner runner' : CommandRunner)
    (display : δ) (display' : δ') (font font' : FontRenderer) (configDirectory : Str)
    (dir dir' : Directory) (is js : List AppInput) :
    effects ((new display' font' configDirectory dir).after runner' (is ++ .reload dir' :: js)).calls =
      effects ((new display' font' configDirectory dir).after runner' (is ++ [.reload dir'])).calls ++
        effects ((new display font configDirectory dir').after runner js).calls := by
  have hgo : Alike _ ((new display font configDirectory dir').after runner js)
      (((new display' font' configDirectory dir).after runner' (is ++ [.reload dir'])).after runner' js) :=
    Alike.after ⟨alike_reload display display' font font' configDirectory dir dir' is, ⟨rfl, nofun⟩⟩ js
  rw [← hgo.effects, Application.after, Application.after, ← Runs.run_append, List.append_assoc]
  rfl

end Application
end Launchpad
