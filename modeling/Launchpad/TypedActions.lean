/-
# Only what is typed is executed

A hotkey is typed as a stretch of events: the introducer is pressed and released with
no other press in between, keys come, and the trailer is pressed or the timer finds the
interval since the last key over (`Stretch.Typed`). Which keys these are, what the
interval is and what a sequence stands for is read off the configuration directory
(`bindings`), as it was when it was last read.

What the application looks up and executes in a run, with reloads anywhere in it, is
what disjoint stretches of it stand for, in order (`executed_typed`): no key outside of
a stretch, no stretch that a reload cuts, and nothing typed under an earlier
configuration executes anything.
-/
import Launchpad.HotInterval
import Launchpad.Segments

namespace Launchpad

open KeyCodes

/-! ### What is read -/

/-- What a run reads one after the other: a key or a look at the timer, or the
directory that is reloaded. -/
inductive Event
  | tick (t : Tick)
  | reload (dir : Directory)

def AppInput.events : AppInput → List Event
  | .step poll => poll.ticks.map .tick
  | .reload dir => [.reload dir]

/-- The directory last read after an event. -/
def Event.reads (dir : Directory) : Event → Directory
  | .tick _ => dir
  | .reload dir' => dir'

/-- The directory last read after a history that starts with `dir`. -/
def readDirectory (dir : Directory) (es : List Event) : Directory := Runs.run Event.reads dir es

theorem readDirectory_ticks (dir : Directory) (es : List Event) (ticks : List Tick) :
    readDirectory dir (es ++ ticks.map .tick) = readDirectory dir es := by
  rw [readDirectory, Runs.run_append]
  have hticks : ∀ (ticks : List Tick) (d : Directory),
      Runs.run Event.reads d (ticks.map .tick) = d := by
    intro ticks
    induction ticks with
    | nil => exact fun d => rfl
    | cons t ticks ih => exact fun d => ih d
  exact hticks ticks _

/-- The keys held after an event, as far as the matcher is told. -/
def Event.counts (n : ℕ) : Event → ℕ
  | .tick (.key ⟨_, .pressed, _⟩) => n + 1
  | .tick (.key ⟨_, .released, _⟩) => n - 1
  | .tick (.check _) => n
  | .reload _ => 0

/-- The keys held after a history that starts with none. -/
def keysHeld (es : List Event) : ℕ := Runs.run Event.counts 0 es

theorem keysHeld_concat (es : List Event) (e : Event) : keysHeld (es ++ [e]) = e.counts (keysHeld es) := by
  rw [keysHeld, Runs.run_append]
  rfl

/-! ### What is bound -/

/-- How hotkeys are typed, and what they stand for. -/
structure Bindings where
  introducer : RawKeyCode
  trailer : RawKeyCode
  hotInterval : UInt32
  action : KeySequence → Option Action

/-- The bindings of a configuration directory: a sequence has the action of the first
entry of `[Actions]` that names it, and two Shifts take a screenshot. -/
def bindings (configDirectory : Str) (dir : Directory) : Bindings :=
  let scanned := ConfigScanner.scanDirectory configDirectory dir
  { introducer := (KeyTable.new.findCode scanned.settings.introducerKey).getD kpkeyShift
    trailer := (KeyTable.new.findCode scanned.settings.trailerKey).getD kpkeyEnter
    hotInterval := scanned.settings.hotInterval
    action := fun s =>
      if s = [kpkeyShift, kpkeyShift] then some ⟨"[Screenshot]".toList, .screenshot⟩
      else (scanned.actions.find? fun e => ActionParser.parseSequence e.key .new = some s).map fun e =>
        ActionParser.parseCommand e.value e.key scanned.settings.scriptDirectory }

/-! ### What is typed -/

/-- The time of the last key of a capture, after one more tick. -/
def lastKeyStep (since : TimePoint) : Tick → TimePoint
  | .key event => if event.type = .pressed then event.now else since
  | .check _ => since

/-- The capture whose last key came at `since` goes on: the trailer is not pressed, and the
timer does not find the interval over. -/
def Bindings.GoesOn (b : Bindings) (since : TimePoint) : Tick → Prop
  | .key event => ¬ (event.type = .pressed ∧ event.code = b.trailer)
  | .check now => millisecondsOf (now - since) < b.hotInterval

instance Bindings.decidableGoesOn (b : Bindings) (since : TimePoint) :
    ∀ t, Decidable (b.GoesOn since t)
  | .key event => inferInstanceAs (Decidable (¬ (event.type = .pressed ∧ event.code = b.trailer)))
  | .check now => inferInstanceAs (Decidable (millisecondsOf (now - since) < b.hotInterval))

/-- The codes of the keys pressed, in order. -/
def pressedCodes (ticks : List Tick) : List RawKeyCode :=
  ticks.filterMap fun
    | .key ⟨code, .pressed, _⟩ => some code
    | _ => none

/-- The tick neither presses a key nor releases the introducer. -/
def Bindings.Waits (b : Bindings) : Tick → Prop
  | .key event => event.type = .released ∧ event.code ≠ b.introducer
  | .check _ => True

/-- The introducer is pressed, and nothing comes of it yet. -/
structure Armed (b : Bindings) (press : KeyEvent) (wait : List Tick) : Prop where
  pressed : press.type = .pressed
  introducer : press.code = b.introducer
  waits : ∀ t ∈ wait, b.Waits t

/-- Then the introducer is released, and `keys` go on with the capture. -/
structure Capturing (b : Bindings) (press : KeyEvent) (wait : List Tick) (release : KeyEvent)
    (keys : List Tick) : Prop extends Armed b press wait where
  released : release.type = .released
  introducer' : release.code = b.introducer
  goesOn : Runs.Each lastKeyStep b.GoesOn release.now keys

/-- A hotkey as it is typed. -/
structure Stretch where
  press : KeyEvent
  wait : List Tick
  release : KeyEvent
  keys : List Tick
  last : Tick

namespace Stretch

def ticks (s : Stretch) : List Tick :=
  .key s.press :: (s.wait ++ .key s.release :: s.keys) ++ [s.last]

/-- Its keys, by the codes they are substituted with. -/
def sequence (s : Stretch) : KeySequence := (pressedCodes s.keys).map KeyTable.new.getSubstituteCode

/-- The capture goes on until the last tick of the stretch. -/
structure Typed (b : Bindings) (s : Stretch) : Prop extends
    Capturing b s.press s.wait s.release s.keys where
  ends : ¬ b.GoesOn (Runs.run lastKeyStep s.release.now s.keys) s.last

end Stretch

/-- Read after `before`, when no key is held, the events `seg` type a sequence, which stands
for an action or for none. -/
def StandsFor (configDirectory : Str) (dir : Directory) (before seg : List Event)
    (k : KeySequence × Option Action) : Prop :=
  keysHeld before = 0 ∧
    ∃ s : Stretch, s.Typed (bindings configDirectory (readDirectory dir before)) ∧
      seg = s.ticks.map .tick ∧ k.1 = s.sequence ∧
      k.2 = (bindings configDirectory (readDirectory dir before)).action s.sequence

/-! ### Where the matcher is in a stretch -/

/-- The matcher has read `ticks` of a stretch, the last key of it at `since`. Outside of
stretches there are none. -/
inductive Place (b : Bindings) : List Tick → MatcherContext → TimePoint → Prop
  | outside {n seq since} : Place b [] ⟨.idle, n, false, seq⟩ since
  | armed {press wait n seq since} (h : Armed b press wait) (hn : n - 1 = 0) :
      Place b (.key press :: wait) ⟨.idle, n, true, seq⟩ since
  | capturing {press wait release keys n} (h : Capturing b press wait release keys) :
      Place b (.key press :: (wait ++ .key release :: keys))
        ⟨.capturing, n, false, (pressedCodes keys).map KeyTable.new.getSubstituteCode⟩
        (Runs.run lastKeyStep release.now keys)

/-- What the matcher is configured with. -/
def Bindings.matcher (b : Bindings) : MatcherConfig := ⟨b.introducer, b.trailer, some .new⟩

/-- One more tick, with `n` keys held before it, leaves the matcher in the stretch, at the
start of another or outside. -/
def Place.Next (b : Bindings) (n : ℕ) (ticks : List Tick) (t : Tick) (ctx : MatcherContext)
    (since : TimePoint) : Prop :=
  (ticks ≠ [] ∧ Place b (ticks ++ [t]) ctx since) ∨ (n = 0 ∧ Place b [t] ctx since) ∨
    Place b [] ctx since

/-- The ticks and `t` are a stretch that types `seq`. -/
def Place.Ends (b : Bindings) (ticks : List Tick) (t : Tick) (seq : KeySequence) : Prop :=
  ∃ s : Stretch, s.Typed b ∧ s.ticks = ticks ++ [t] ∧ s.sequence = seq

variable {b : Bindings} {ticks : List Tick} {ctx ctx' : MatcherContext} {since : TimePoint}
  {r : MatcherResult}

@[simp] theorem pressedCodes_append (ticks ticks' : List Tick) :
    pressedCodes (ticks ++ ticks') = pressedCodes ticks ++ pressedCodes ticks' :=
  List.filterMap_append

theorem Armed.concat {press : KeyEvent} {wait : List Tick} (h : Armed b press wait) {t : Tick}
    (ht : b.Waits t) : Armed b press (wait ++ [t]) := by
  refine ⟨h.pressed, h.introducer, fun t' ht' => ?_⟩
  rcases List.mem_append.mp ht' with hmem | hmem
  · exact h.waits t' hmem
  · rw [List.mem_singleton.mp hmem]
    exact ht

theorem Capturing.concat {press release : KeyEvent} {wait keys : List Tick}
    (h : Capturing b press wait release keys) {t : Tick}
    (ht : b.GoesOn (Runs.run lastKeyStep release.now keys) t) :
    Capturing b press wait release (keys ++ [t]) := by
  refine ⟨h.toArmed, h.released, h.introducer', ?_⟩
  rw [Runs.each_append]
  exact ⟨h.goesOn, ht, trivial⟩

/-- A capture goes on with `t`. -/
theorem Place.capturing_concat {press release : KeyEvent} {wait keys : List Tick} {n : ℕ}
    (h : Capturing b press wait release keys) {t : Tick}
    (ht : b.GoesOn (Runs.run lastKeyStep release.now keys) t) :
    Place b (.key press :: (wait ++ .key release :: keys) ++ [t])
      ⟨.capturing, n, false, (pressedCodes (keys ++ [t])).map KeyTable.new.getSubstituteCode⟩
      (lastKeyStep (Runs.run lastKeyStep release.now keys) t) := by
  have hplace := Place.capturing (n := n) (h.concat ht)
  rw [Runs.run_append] at hplace
  rw [show Tick.key press :: (wait ++ .key release :: keys) ++ [t] =
    .key press :: (wait ++ .key release :: (keys ++ [t])) by simp]
  exact hplace

/-- A capture ends with `t`. -/
theorem Place.ends {press release : KeyEvent} {wait keys : List Tick}
    (h : Capturing b press wait release keys) {t : Tick}
    (ht : ¬ b.GoesOn (Runs.run lastKeyStep release.now keys) t) :
    Place.Ends b (.key press :: (wait ++ .key release :: keys)) t
      ((pressedCodes keys).map KeyTable.new.getSubstituteCode) :=
  ⟨⟨press, wait, release, keys, t⟩, ⟨h, ht⟩, rfl, rfl⟩

/-- The answer completes nothing. -/
def MatcherResult.Collects (r : MatcherResult) : Prop :=
  r.type = .none ∨ r.type = .startCapture ∨ r.type = .keyAppended

/-- The time of the last key, after the answer `r` to a key read at `now`. -/
def answerTime (since now : TimePoint) (r : MatcherResult) : TimePoint :=
  if r.type = .startCapture ∨ r.type = .keyAppended then now else since

/-- What a key event does, by the handler that reads it. -/
theorem Place.key {code : RawKeyCode} {type : KeyEventType} (now : TimePoint)
    (h : Place b ticks ctx since) (hs : MatcherStep b.matcher ctx (.key code type) ctx' r) :
    (r.Collects ∧
        Place.Next b ctx.keysDown ticks (.key ⟨code, type, now⟩) ctx' (answerTime since now r)) ∨
      (r.type = .sequenceComplete ∧ Place b [] ctx' since ∧
        Place.Ends b ticks (.key ⟨code, type, now⟩) r.sequence) := by
  cases hs with
  | @idlePress n armed seq code =>
    -- wherever the matcher was, only the press of the introducer alone arms it
    refine Or.inl ⟨Or.inl rfl, ?_⟩
    by_cases harms : n = 0 ∧ code = b.introducer
    · have hdecide : decide (n = 0 ∧ code = b.matcher.introducer) = true := decide_eq_true harms
      rw [hdecide]
      have hpress : Armed b ⟨code, .pressed, now⟩ [] := ⟨rfl, harms.2, fun _ ht => absurd ht List.not_mem_nil⟩
      exact Or.inr (Or.inl ⟨harms.1, .armed hpress (by rw [harms.1])⟩)
    · have hdecide : decide (n = 0 ∧ code = b.matcher.introducer) = false := decide_eq_false harms
      rw [hdecide]
      exact Or.inr (Or.inr .outside)
  | start hn =>
    cases h with
    | @armed press wait n seq since harmed _ =>
      have hreleased : Capturing b press wait ⟨b.introducer, .released, now⟩ [] :=
        ⟨harmed, rfl, rfl, trivial⟩
      exact Or.inl ⟨Or.inr (Or.inl rfl), Or.inl ⟨List.cons_ne_nil _ _, .capturing hreleased⟩⟩
  | idleRelease code hr =>
    cases h with
    | outside => exact Or.inl ⟨Or.inl rfl, Or.inr (Or.inr .outside)⟩
    | armed harmed hn =>
      -- the matcher is armed with at most the introducer held, whose release would start a capture
      have hother : code ≠ b.introducer := fun hcode => hr ⟨hn, hcode, rfl⟩
      refine Or.inl ⟨Or.inl rfl, Or.inl ⟨List.cons_ne_nil _ _, ?_⟩⟩
      exact .armed (harmed.concat ⟨rfl, hother⟩) (by omega)
  | trailer =>
    cases h with
    | @capturing press wait release keys n hcapturing =>
      refine Or.inr ⟨rfl, .outside, Place.ends hcapturing ?_⟩
      exact fun hgoes => hgoes ⟨rfl, rfl⟩
  | @append n armed seq code hne =>
    cases h with
    | @capturing press wait release keys _ hcapturing =>
      refine Or.inl ⟨Or.inr (Or.inr rfl), Or.inl ⟨List.cons_ne_nil _ _, ?_⟩⟩
      have hplace := Place.capturing_concat (n := n + 1) hcapturing
        (t := .key ⟨code, .pressed, now⟩) fun hgoes => hne hgoes.2
      rw [pressedCodes_append, List.map_append] at hplace
      exact hplace
  | @capturingRelease n armed seq code =>
    cases h with
    | @capturing press wait release keys _ hcapturing =>
      refine Or.inl ⟨Or.inl rfl, Or.inl ⟨List.cons_ne_nil _ _, ?_⟩⟩
      have hplace := Place.capturing_concat (n := n - 1) hcapturing
        (t := .key ⟨code, .released, now⟩) fun hgoes => nomatch hgoes.1
      have hcodes : pressedCodes [.key ⟨code, .released, now⟩] = [] := rfl
      rw [pressedCodes_append, hcodes, List.append_nil] at hplace
      exact hplace

/-- A look at the timer leaves an idle matcher where it is. -/
theorem Place.check_idle (now : TimePoint) (h : Place b ticks ctx since) (hidle : ctx.state = .idle) :
    Place.Next b ctx.keysDown ticks (.check now) ctx since := by
  cases h with
  | outside => exact Or.inr (Or.inr .outside)
  | armed harmed hn => exact Or.inl ⟨List.cons_ne_nil _ _, .armed (harmed.concat trivial) hn⟩
  | capturing => exact nomatch hidle

/-- A look at the timer while a capture is on. -/
theorem Place.check_capturing (now : TimePoint) (h : Place b ticks ctx since)
    (hcapturing : ctx.state = .capturing) :
    (millisecondsOf (now - since) < b.hotInterval →
        Place.Next b ctx.keysDown ticks (.check now) ctx since) ∧
      (¬ millisecondsOf (now - since) < b.hotInterval →
        Place b [] { ctx with state := .idle, sequence := [] } since ∧
          Place.Ends b ticks (.check now) ctx.sequence) := by
  cases h with
  | outside => exact nomatch hcapturing
  | armed => exact nomatch hcapturing
  | @capturing press wait release keys n hkeys =>
    refine ⟨fun hsoon => Or.inl ⟨List.cons_ne_nil _ _, ?_⟩, fun hlate => ⟨.outside, Place.ends hkeys hlate⟩⟩
    have hplace := Place.capturing_concat (n := n) hkeys (t := .check now) hsoon
    have hcodes : pressedCodes [.check now] = [] := rfl
    rw [pressedCodes_append, hcodes, List.append_nil] at hplace
    exact hplace

/-- The matcher counts the keys held. -/
theorem MatcherStep.counts {config : MatcherConfig} {code : RawKeyCode} {type : KeyEventType}
    (hs : MatcherStep config ctx (.key code type) ctx' r) (now : TimePoint) :
    ctx'.keysDown = Event.counts ctx.keysDown (.tick (.key ⟨code, type, now⟩)) := by
  cases hs with
  | start hn => exact hn.symm
  | _ => rfl

theorem MatcherStep.counts_timeout {config : MatcherConfig}
    (hs : MatcherStep config ctx .timeout ctx' r) : ctx'.keysDown = ctx.keysDown := by
  cases hs <;> rfl

/-! ### What is looked up and executed -/

/-- The sequences looked up by the calls, in order. -/
def lookedUp (calls : List Call) : List KeySequence :=
  calls.filterMap fun
    | .findAction sequence => some sequence
    | _ => none

@[simp] theorem lookedUp_append (calls calls' : List Call) :
    lookedUp (calls ++ calls') = lookedUp calls ++ lookedUp calls' := List.filterMap_append

/-- The executor looks nothing up. -/
theorem findAction_notMem_execute (e : ActionExecutor) (before : List Call) (action : Action)
    (sequence : KeySequence) : .findAction sequence ∉ e.execute before action := by
  intro hmem
  unfold ActionExecutor.execute at hmem
  cases hpayload : action.payload with
  | shell command => simp [hpayload, ActionExecutor.executeShell, ActionExecutor.notify] at hmem
  | script scriptPath => simp [hpayload] at hmem
  | kindleKeys keys => simp [hpayload] at hmem
  | sendKeys keys =>
    simp only [hpayload, ActionExecutor.executeSendKeys, List.mem_append] at hmem
    rcases hmem with hkey | hnotify
    · obtain ⟨w, _, hw⟩ := List.mem_flatMap.mp hkey
      exact Bool.false_ne_true (ActionExecutor.injection_of_mem_sendToken hw)
    · simp [ActionExecutor.notify] at hnotify
  | screenshot => simp [hpayload, ActionExecutor.executeScreenshot, ActionExecutor.notify] at hmem

theorem lookedUp_execute (e : ActionExecutor) (before : List Call) (action : Action) :
    lookedUp (e.execute before action) = [] := by
  apply List.filterMap_eq_nil_iff.mpr
  intro c hc
  cases c with
  | findAction sequence => exact absurd hc (findAction_notMem_execute e before action sequence)
  | _ => rfl

namespace Application

variable {δ : Type*} {runner : CommandRunner} {app app' : Application δ}
  {ks : List (KeySequence × Option Action)}

/-- The application has looked up the sequences of `ks` and executed their actions. -/
structure Acted (app : Application δ) (ks : List (KeySequence × Option Action)) : Prop where
  lookedUp : lookedUp app.calls = ks.map Prod.fst
  executed : executed app.calls = ks.filterMap Prod.snd

theorem Acted.calls (h : Acted app ks) (cs : List Call) (hcalls : app'.calls = app.calls ++ cs)
    (hlookedUp : Launchpad.lookedUp cs = []) (hexecuted : Launchpad.executed cs = []) :
    Acted app' ks := by
  refine ⟨?_, ?_⟩
  · rw [hcalls, lookedUp_append, hlookedUp, List.append_nil]
    exact h.lookedUp
  · rw [hcalls, executed_append, hexecuted, List.append_nil]
    exact h.executed

theorem filterMap_snd_singleton (sequence : KeySequence) (o : Option Action) :
    [(sequence, o)].filterMap Prod.snd = o.toList := by
  cases o <;> rfl

variable [IDisplay δ]

theorem lookedUp_completeCalls (app : Application δ) (sequence : KeySequence) :
    lookedUp (completeCalls runner app sequence) = [sequence] := by
  have hrelease : lookedUp app.releaseCalls = [] := by
    unfold releaseCalls
    split_ifs <;> rfl
  have hmatch : ∀ app : Application δ, lookedUp (matchCalls runner app sequence) = [sequence] := by
    intro app
    unfold matchCalls
    cases app.registry.findAction sequence with
    | none => rfl
    | some action =>
      have hcons : ∀ calls, lookedUp (.findAction sequence :: .execute action :: calls) =
          sequence :: lookedUp calls := fun _ => rfl
      simp only [hcons, lookedUp_execute]
  have hhide : ∀ calls, lookedUp (.hideStatus :: calls) = lookedUp calls := fun _ => rfl
  rw [completeCalls, lookedUp_append, hrelease, List.nil_append, hhide, hmatch]

/-- A completed match looks its sequence up and executes what is bound to it. -/
theorem Acted.complete (runner : CommandRunner) (h : Acted app ks) (matcher : SequenceMatcher) (result : MatcherResult) :
    Acted ({ app with matcher }.handleCompletedMatch runner result)
      (ks ++ [(result.sequence, app.registry.findAction result.sequence)]) := by
  have hacts := handleCompletedMatch_acts runner { app with matcher } result
  refine ⟨?_, ?_⟩
  · rw [hacts.calls, lookedUp_append, lookedUp_completeCalls, List.map_append]
    exact congrArg (· ++ [result.sequence]) h.lookedUp
  · rw [hacts.calls, executed_append, executed_completeCalls, List.filterMap_append]
    rw [filterMap_snd_singleton]
    exact congrArg (· ++ (app.registry.findAction result.sequence).toList) h.executed

/-! ### One tick -/

/-- The application is configured with the bindings. -/
structure Bound (b : Bindings) (app : Application δ) : Prop where
  matcher : app.matcher.config = b.matcher
  hotInterval : app.hotInterval = b.hotInterval
  action : ∀ s, app.registry.findAction s = b.action s

/-- After one more tick the application is on its way in a stretch, or has executed what it
stands for. -/
def Reads (b : Bindings) (n : ℕ) (ticks : List Tick) (t : Tick) (ks : List (KeySequence × Option Action))
    (app : Application δ) : Prop :=
  (Place.Next b n ticks t app.matcher.context app.lastKeyTime ∧ Acted app ks) ∨
    ∃ s : Stretch, s.Typed b ∧ s.ticks = ticks ++ [t] ∧
      Place b [] app.matcher.context app.lastKeyTime ∧ Acted app (ks ++ [(s.sequence, b.action s.sequence)])

/-- An application that goes on as it is, as far as hotkeys go. -/
theorem Acted.processResult (runner : CommandRunner) (h : Acted app ks) (matcher : SequenceMatcher)
    {result : MatcherResult} (now : TimePoint) (hcollects : result.Collects) :
    Acted ({ app with matcher }.processResult runner result now) ks ∧
      ({ app with matcher }.processResult runner result now).lastKeyTime =
        answerTime app.lastKeyTime now result := by
  unfold Application.processResult answerTime
  rcases hcollects with htype | htype | htype <;> rw [htype]
  · exact ⟨⟨h.lookedUp, h.executed⟩, rfl⟩
  · refine ⟨?_, rfl⟩
    unfold grabCapture
    split_ifs
    · exact h.calls [.showStatus "^[...]".toList] rfl rfl rfl
    · exact h.calls [.grab, .showStatus "^[...]".toList]
        (List.append_assoc app.calls [.grab] [.showStatus "^[...]".toList]) rfl rfl
  · exact ⟨h.calls [.showStatus "^[...]".toList] rfl rfl rfl, rfl⟩

/-- The end of a capture in a place. -/
theorem Acted.ends {b : Bindings} {n : ℕ} {ticks : List Tick} {t : Tick} (h : Acted app ks)
    (hbound : Bound b app) {matcher : SequenceMatcher} {result : MatcherResult} {since : TimePoint}
    (hplace : Place b [] matcher.context since) (hends : Place.Ends b ticks t result.sequence) :
    Reads b n ticks t ks ({ app with matcher }.handleCompletedMatch runner result) := by
  obtain ⟨s, htyped, hticks, hsequence⟩ := hends
  have hmatcher : ({ app with matcher }.handleCompletedMatch runner result).matcher = matcher :=
    (handleCompletedMatch_fields runner { app with matcher } result).1
  have hacted := h.complete runner matcher result
  rw [hbound.action, ← hsequence] at hacted
  refine Or.inr ⟨s, htyped, hticks, ?_, hacted⟩
  rw [hmatcher]
  cases matcher with
  | mk config context =>
    cases hplace with
    | outside => exact .outside

theorem reads_key {b : Bindings} {ticks : List Tick} (hbound : Bound b app)
    (hplace : Place b ticks app.matcher.context app.lastKeyTime) (hacted : Acted app ks)
    (event : KeyEvent) :
      Reads b app.matcher.context.keysDown ticks (.key event) ks (app.processKeyEvent runner event) := by
  have hstep := SequenceMatcher.feed_step app.matcher (.key event.code event.type)
  rw [hbound.matcher] at hstep
  rcases hplace.key event.now hstep with ⟨hcollects, hnext⟩ | ⟨hcomplete, hout, hends⟩
  · obtain ⟨hgo, htime⟩ := hacted.processResult runner
      (app.matcher.feed (.key event.code event.type)).1 event.now hcollects
    refine Or.inl ⟨?_, hgo⟩
    have happ : app.processKeyEvent runner event =
        { app with matcher := (app.matcher.feed (.key event.code event.type)).1 }.processResult runner
          (app.matcher.feed (.key event.code event.type)).2 event.now := rfl
    rw [processKeyEvent_matcher, happ, htime]
    exact hnext
  · have happ : app.processKeyEvent runner event =
        { app with matcher := (app.matcher.feed (.key event.code event.type)).1 }.handleCompletedMatch
          runner (app.matcher.feed (.key event.code event.type)).2 := by
      show processResult runner _ (app.matcher.feed (.key event.code event.type)).2 event.now = _
      unfold Application.processResult
      rw [hcomplete]
      rfl
    rw [happ]
    exact hacted.ends hbound hout hends

/-- The timer of an idle matcher: a capture that a reload has left without a matcher is over. -/
theorem checkTimer_idle (runner : CommandRunner) (hidle : app.matcher.state = .idle) (now : TimePoint) :
    (app.checkTimer runner now).matcher = app.matcher ∧
      (app.checkTimer runner now).lastKeyTime = app.lastKeyTime ∧
      ∀ ks, Acted app ks → Acted (app.checkTimer runner now) ks := by
  unfold checkTimer
  split_ifs
  · exact ⟨rfl, rfl, fun _ => id⟩
  · exact ⟨rfl, rfl, fun _ => id⟩
  · rw [timeOut, SequenceMatcher.onTimeout_idle hidle]
    exact ⟨rfl, rfl, fun _ hacted => hacted.calls [.release, .hideStatus] (by simp [perform]) rfl rfl⟩

theorem reads_check {b : Bindings} {ticks : List Tick} (hbound : Bound b app) (hsound : Sound app)
    (hplace : Place b ticks app.matcher.context app.lastKeyTime) (hacted : Acted app ks)
    (now : TimePoint) :
      Reads b app.matcher.context.keysDown ticks (.check now) ks (app.checkTimer runner now) := by
  cases hstate : app.matcher.context.state with
  | idle =>
    obtain ⟨hmatcher, htime, hsame⟩ := checkTimer_idle runner hstate now
    refine Or.inl ⟨?_, hsame ks hacted⟩
    rw [hmatcher, htime]
    exact hplace.check_idle now hstate
  | capturing =>
    obtain ⟨hsoon, hlate⟩ := hplace.check_capturing now hstate
    have hcapturing : ¬ app.isCapturing = false := by
      rw [show app.isCapturing = true from hsound.held.matcher hstate]
      exact Bool.false_ne_true.symm
    rw [← hbound.hotInterval] at hsoon hlate
    rw [checkTimer, if_neg hcapturing]
    split_ifs with hintime
    · exact Or.inl ⟨hsoon hintime, hacted⟩
    · obtain ⟨hout, hends⟩ := hlate hintime
      rw [timeOut, SequenceMatcher.onTimeout_capturing hstate]
      exact hacted.ends hbound hout hends

theorem reads_tick (runner : CommandRunner) {b : Bindings} {ticks : List Tick} (hbound : Bound b app) (hsound : Sound app)
    (hplace : Place b ticks app.matcher.context app.lastKeyTime) (hacted : Acted app ks) (t : Tick) :
    Reads b app.matcher.context.keysDown ticks t ks (app.tick runner t) := by
  cases t with
  | key event => exact reads_key hbound hplace hacted event
  | check now => exact reads_check hbound hsound hplace hacted now

/-! ### Runs -/

/-- The application reads one event. -/
def read (runner : CommandRunner) (app : Application δ) : Event → Application δ
  | .tick t => app.tick runner t
  | .reload dir => app.reloadConfiguration dir

/-- A run reads its events one after the other. -/
theorem after_eq_read (runner : CommandRunner) (app : Application δ) (is : List AppInput) :
    app.after runner is = Runs.run (read runner) app (is.flatMap AppInput.events) := by
  induction is generalizing app with
  | nil => rfl
  | cons i is ih =>
    rw [List.flatMap_cons, Runs.run_append]
    have hinput : Runs.run (read runner) app i.events = app.feed runner i := by
      cases i with
      | step poll =>
        show Runs.run (read runner) app (poll.ticks.map .tick) = app.step runner poll
        rw [step_eq_ticks, Runs.run, List.foldl_map]
        rfl
      | reload dir => rfl
    rw [hinput]
    exact ih (app.feed runner i)

theorem configuration_tick (app : Application δ) (t : Tick) :
    (app.tick runner t).configuration = app.configuration := by
  cases t with
  | key event => exact configuration_processKeyEvent app event
  | check now =>
    rw [Application.tick, checkTimer]
    split_ifs
    · rfl
    · rfl
    · exact configuration_timeOut app

theorem keysDown_tick (runner : CommandRunner) (app : Application δ) (t : Tick) :
    (app.tick runner t).matcher.context.keysDown =
      Event.counts app.matcher.context.keysDown (.tick t) := by
  cases t with
  | key event =>
    rw [Application.tick, processKeyEvent_matcher]
    exact (SequenceMatcher.feed_step app.matcher (.key event.code event.type)).counts event.now
  | check now =>
    rcases checkTimer_matcher runner app now with hsame | hfeed
    · rw [Application.tick, hsame]
      rfl
    · rw [Application.tick, hfeed]
      exact (SequenceMatcher.feed_step app.matcher .timeout).counts_timeout

omit [IDisplay δ] in
/-- Ticks leave the bindings. -/
theorem Bound.of_configuration {b : Bindings} (h : Bound b app)
    (hconfiguration : app'.configuration = app.configuration) : Bound b app' where
  matcher := (congrArg Configuration.matcher hconfiguration).trans h.matcher
  hotInterval := (congrArg Configuration.hotInterval hconfiguration).trans h.hotInterval
  action := by
    intro s
    have hregistry : app'.registry = app.registry := congrArg Configuration.registry hconfiguration
    rw [hregistry]
    exact h.action s

variable (runner) (display : δ) (font : FontRenderer) (configDirectory : Str) (dir : Directory)

omit [IDisplay δ] in
/-- The configuration of a directory is its bindings. -/
theorem bound_of_configuration
    (h : app.configuration = (new display font configDirectory dir).configuration) :
    Bound (bindings configDirectory dir) app where
  matcher := congrArg Configuration.matcher h
  hotInterval := congrArg Configuration.hotInterval h
  action := by
    intro s
    have hregistry : app.registry = (new display font configDirectory dir).registry :=
      congrArg Configuration.registry h
    rw [hregistry, findAction_new_eq]
    rfl

/-- The application has read `before` and then the part `seg` of a stretch. -/
structure Inside (before seg : List Event) (app : Application δ) : Prop where
  sound : Sound app
  configuration : app.configuration =
    (new display font configDirectory (readDirectory dir (before ++ seg))).configuration
  keysDown : app.matcher.context.keysDown = keysHeld (before ++ seg)
  free : seg ≠ [] → keysHeld before = 0
  place : ∃ ticks : List Tick, seg = ticks.map .tick ∧
    Place (bindings configDirectory (readDirectory dir before)) ticks app.matcher.context
      app.lastKeyTime

variable {runner display font configDirectory dir} {before seg : List Event}

theorem Inside.tick (h : Inside display font configDirectory dir before seg app) (hacted : Acted app ks)
    (t : Tick) :
    Segments.Advance (StandsFor configDirectory dir) (Inside display font configDirectory dir) Acted
      before seg (.tick t) ks (app.tick runner t) := by
  obtain ⟨ticks, rfl, hplace⟩ := h.place
  have hconfiguration := h.configuration
  rw [readDirectory_ticks] at hconfiguration
  have hbound := bound_of_configuration display font configDirectory _ hconfiguration
  have hsound : Sound (app.tick runner t) := h.sound.tick t
  have hnext : (app.tick runner t).configuration =
      (new display font configDirectory (readDirectory dir before)).configuration :=
    (configuration_tick app t).trans hconfiguration
  have hdirectory : readDirectory dir (before ++ ticks.map .tick ++ [.tick t]) =
      readDirectory dir before :=
    (readDirectory_ticks dir (before ++ ticks.map .tick) [t]).trans (readDirectory_ticks dir before ticks)
  have hcount : (app.tick runner t).matcher.context.keysDown =
      keysHeld (before ++ ticks.map .tick ++ [.tick t]) := by
    rw [keysDown_tick, keysHeld_concat, h.keysDown]
  have hout : ∀ b, Place b [] (app.tick runner t).matcher.context (app.tick runner t).lastKeyTime →
      Inside display font configDirectory dir (before ++ ticks.map .tick ++ [.tick t]) []
        (app.tick runner t) := by
    intro b hplace
    refine ⟨hsound, ?_, ?_, fun hne => absurd rfl hne, [], rfl, ?_⟩
    · rw [List.append_nil, hdirectory]
      exact hnext
    · rw [List.append_nil]
      exact hcount
    · generalize (app.tick runner t).matcher.context = ctx at hplace ⊢
      cases hplace with
      | outside => exact .outside
  have hseg : ticks.map .tick ++ [.tick t] = (ticks ++ [t]).map Event.tick := by
    rw [List.map_append]
    rfl
  rcases reads_tick runner hbound h.sound hplace hacted t with
    ⟨⟨hne, hgo⟩ | ⟨hfree, hstart⟩ | hleave, hacted⟩ | ⟨s, htyped, hticks, hleave, hacted⟩
  · have hfree : keysHeld before = 0 := h.free fun hnil => hne (List.map_eq_nil_iff.mp hnil)
    refine .goOn ⟨hsound, ?_, ?_, fun _ => hfree, ticks ++ [t], hseg, hgo⟩ hacted
    · rw [← List.append_assoc, hdirectory]
      exact hnext
    · rw [← List.append_assoc]
      exact hcount
  · rw [h.keysDown] at hfree
    refine .start ⟨hsound, ?_, hcount, fun _ => hfree, [t], rfl, ?_⟩ hacted
    · rw [hdirectory]
      exact hnext
    · rw [readDirectory_ticks]
      exact hstart
  · exact .leave (hout _ hleave) hacted
  · have hne : ticks ≠ [] := by
      rintro rfl
      have hlength := congrArg List.length hticks
      simp [Stretch.ticks] at hlength
    have hfree : keysHeld before = 0 := h.free fun hnil => hne (List.map_eq_nil_iff.mp hnil)
    refine .complete (s.sequence, _) ⟨hfree, s, htyped, ?_, rfl, rfl⟩ (hout _ hleave) hacted
    rw [hticks, List.map_append]
    rfl

theorem Inside.reload (h : Inside display font configDirectory dir before seg app) (hacted : Acted app ks)
    (dir' : Directory) :
    Segments.Advance (StandsFor configDirectory dir) (Inside display font configDirectory dir) Acted
      before seg (.reload dir') ks (app.reloadConfiguration dir') := by
  refine .leave ⟨?_, ?_, ?_, fun hne => absurd rfl hne, [], rfl, .outside⟩ (hacted.calls [.showStatus "Reloaded".toList] rfl rfl rfl)
  · have hreload : Sound (app.feed (fun _ _ => 0) (.reload dir')) := h.sound.feed (.reload dir')
    exact hreload
  · have hdirectory : readDirectory dir (before ++ seg ++ [.reload dir'] ++ []) = dir' := by
      rw [List.append_nil, readDirectory, Runs.run_append]
      rfl
    rw [hdirectory]
    exact (configuration_loadConfiguration_congr h.configuration dir').trans
      (configuration_loadConfiguration_new display font configDirectory _ dir')
  · rw [List.append_nil, keysHeld_concat]
    rfl

/-- Every input advances the application. -/
theorem Inside.advance (runner : CommandRunner) (h : Inside display font configDirectory dir before seg app) (hacted : Acted app ks)
    (e : Event) :
    Segments.Advance (StandsFor configDirectory dir) (Inside display font configDirectory dir) Acted
      before seg e ks (read runner app e) := by
  cases e with
  | tick t => exact h.tick hacted t
  | reload dir' => exact h.reload hacted dir'

variable (runner display font configDirectory dir)

omit [IDisplay δ] in
theorem inside_new : Inside display font configDirectory dir [] [] (new display font configDirectory dir) :=
  ⟨⟨⟨rfl, nofun⟩, nofun⟩, rfl, rfl, fun hne => absurd rfl hne, [], rfl, .outside⟩

structure On (b : Bindings) (ks : List (KeySequence × Option Action)) (ctx : MatcherContext)
    (since : TimePoint) (app : Application δ) : Prop where
  bound : Bound b app
  sound : Sound app
  context : app.matcher.context = ctx
  lastKeyTime : app.lastKeyTime = since
  acted : Acted app ks

variable {display font configDirectory dir} {b : Bindings} {ctx ctx' : MatcherContext}
  {since : TimePoint} {n : ℕ} {seq : KeySequence}

/-- A key that completes nothing. -/
theorem On.key (runner : CommandRunner) (h : On b ks ctx since app) {code : RawKeyCode} {type : KeyEventType}
    {result : MatcherResult} (now : TimePoint)
    (hfeed : SequenceMatcher.processKeyEvent ⟨b.matcher, ctx⟩ code type = (⟨b.matcher, ctx'⟩, result))
    (hcollects : result.Collects) :
    On b ks ctx' (answerTime since now result) (app.processKeyEvent runner ⟨code, type, now⟩) := by
  have hmatcher : app.matcher = ⟨b.matcher, ctx⟩ := by
    rw [← h.bound.matcher, ← h.context]
  have happ : app.processKeyEvent runner ⟨code, type, now⟩ =
      { app with matcher := ⟨b.matcher, ctx'⟩ }.processResult runner result now := by
    rw [processKeyEvent, hmatcher, hfeed]
  obtain ⟨hacted, htime⟩ := h.acted.processResult runner ⟨b.matcher, ctx'⟩ now hcollects
  refine ⟨h.bound.of_configuration (configuration_processKeyEvent app _), h.sound.tick (.key _), ?_, ?_, ?_⟩
  · rw [happ, processResult_matcher]
  · rw [happ, htime, h.lastKeyTime]
  · rw [happ]
    exact hacted

/-- While the matcher is armed, it waits. -/
theorem On.waits (runner : CommandRunner) (h : On b ks ⟨.idle, n, true, seq⟩ since app) (hn : n - 1 = 0) {t : Tick}
    (ht : b.Waits t) : ∃ n', n' - 1 = 0 ∧ On b ks ⟨.idle, n', true, seq⟩ since (app.tick runner t) := by
  cases t with
  | key event =>
    rcases event with ⟨code, type, now⟩
    obtain ⟨rfl, hother⟩ : type = .released ∧ code ≠ b.introducer := ht
    have hfeed : SequenceMatcher.processKeyEvent ⟨b.matcher, ⟨.idle, n, true, seq⟩⟩ code .released =
        (⟨b.matcher, ⟨.idle, n - 1, true, seq⟩⟩, {}) := by
      have hcode : code ≠ b.matcher.introducer := hother
      simp [SequenceMatcher.processKeyEvent, SequenceMatcher.handleIdleRelease, hcode]
    exact ⟨n - 1, by omega, h.key runner now hfeed (Or.inl rfl)⟩
  | check now =>
    obtain ⟨hmatcher, htime, hsame⟩ :=
      checkTimer_idle runner (congrArg MatcherContext.state h.context : app.matcher.state = .idle) now
    exact ⟨n, hn, h.bound.of_configuration (configuration_tick app (.check now)), h.sound.tick _,
      (congrArg SequenceMatcher.context hmatcher).trans h.context, htime.trans h.lastKeyTime,
      hsame ks h.acted⟩

/-- The introducer, pressed alone and then released, starts a capture. -/
theorem On.introducer (runner : CommandRunner) {press release : KeyEvent} {wait : List Tick} {armed : Bool}
    (h : On b ks ⟨.idle, 0, armed, seq⟩ since app) (hcapturing : Capturing b press wait release []) :
    On b ks ⟨.capturing, 0, false, []⟩ release.now
      (Runs.run (tick runner) app (.key press :: (wait ++ [.key release]))) := by
  have hwait : ∀ (wait : List Tick) (app : Application δ) (n : ℕ), (∀ t ∈ wait, b.Waits t) →
      n - 1 = 0 → On b ks ⟨.idle, n, true, seq⟩ since app → ∃ n', n' - 1 = 0 ∧
        On b ks ⟨.idle, n', true, seq⟩ since (Runs.run (tick runner) app wait) := by
    intro wait
    induction wait with
    | nil => exact fun app n _ hn happ => ⟨n, hn, happ⟩
    | cons t wait ih =>
      intro app n hall hn happ
      obtain ⟨n', hn', hnext⟩ := happ.waits runner hn (hall t List.mem_cons_self)
      exact ih _ n' (fun t' ht' => hall t' (List.mem_cons_of_mem t ht')) hn' hnext
  rcases press with ⟨pressCode, pressType, pressNow⟩
  rcases release with ⟨releaseCode, releaseType, releaseNow⟩
  obtain ⟨⟨hpressed, hpress, hwaits⟩, hreleased, hrelease, -⟩ := hcapturing
  simp only at hpressed hpress hreleased hrelease
  subst hpressed hpress hreleased hrelease
  have hfeed : SequenceMatcher.processKeyEvent ⟨b.matcher, ⟨.idle, 0, armed, seq⟩⟩ b.introducer
      .pressed = (⟨b.matcher, ⟨.idle, 1, true, seq⟩⟩, {}) := by
    have hcode : b.introducer = b.matcher.introducer := rfl
    simp [SequenceMatcher.processKeyEvent, SequenceMatcher.handleIdlePress, hcode]
  have harmed := h.key runner pressNow hfeed (Or.inl rfl)
  obtain ⟨n, hn, hwaited⟩ := hwait wait _ 1 hwaits rfl harmed
  have hstart : SequenceMatcher.processKeyEvent ⟨b.matcher, ⟨.idle, n, true, seq⟩⟩ b.introducer
      .released = (⟨b.matcher, ⟨.capturing, n - 1, false, []⟩⟩, { type := .startCapture }) := by
    have hcode : b.introducer = b.matcher.introducer := rfl
    simp [SequenceMatcher.processKeyEvent, SequenceMatcher.handleIdleRelease, hcode, hn]
  have hnext := hwaited.key runner releaseNow hstart (Or.inr (Or.inl rfl))
  rw [hn] at hnext
  rw [Runs.run_cons, Runs.run_append]
  exact hnext

/-- A tick that the capture goes on with. -/
theorem On.goesOn (runner : CommandRunner) (h : On b ks ⟨.capturing, n, false, seq⟩ since app) {t : Tick}
    (ht : b.GoesOn since t) :
    ∃ n', On b ks ⟨.capturing, n', false, seq ++ (pressedCodes [t]).map KeyTable.new.getSubstituteCode⟩
      (lastKeyStep since t) (app.tick runner t) := by
  cases t with
  | key event =>
    rcases event with ⟨code, type, now⟩
    cases type with
    | pressed =>
      have hne : code ≠ b.matcher.trailer := fun hcode => ht ⟨rfl, hcode⟩
      have hfeed : SequenceMatcher.processKeyEvent ⟨b.matcher, ⟨.capturing, n, false, seq⟩⟩ code
          .pressed = (⟨b.matcher, ⟨.capturing, n + 1, false,
            seq ++ [KeyTable.new.getSubstituteCode code]⟩⟩,
            { type := .keyAppended, sequence := seq ++ [KeyTable.new.getSubstituteCode code] }) := by
        simp [SequenceMatcher.processKeyEvent, SequenceMatcher.handleCapturingPress, hne]
        rfl
      exact ⟨n + 1, h.key runner now hfeed (Or.inr (Or.inr rfl))⟩
    | released =>
      have hfeed : SequenceMatcher.processKeyEvent ⟨b.matcher, ⟨.capturing, n, false, seq⟩⟩ code
          .released = (⟨b.matcher, ⟨.capturing, n - 1, false, seq⟩⟩, {}) := rfl
      have hnext := h.key runner now hfeed (Or.inl rfl)
      have hcodes : pressedCodes [.key ⟨code, .released, now⟩] = [] := rfl
      rw [hcodes, List.map_nil, List.append_nil]
      exact ⟨n - 1, hnext⟩
  | check now =>
    have hcapturing : ¬ app.isCapturing = false := by
      rw [show app.isCapturing = true from
        h.sound.held.matcher (congrArg MatcherContext.state h.context)]
      exact Bool.false_ne_true.symm
    have hsoon : millisecondsOf (now - app.lastKeyTime) < app.hotInterval := by
      rw [h.lastKeyTime, h.bound.hotInterval]
      exact ht
    have hsame : app.tick runner (.check now) = app := by
      rw [Application.tick, checkTimer, if_neg hcapturing, if_pos hsoon]
    have hcodes : pressedCodes [.check now] = [] := rfl
    rw [hsame, hcodes, List.map_nil, List.append_nil]
    exact ⟨n, h⟩

theorem On.goesOn_run (runner : CommandRunner) (keys : List Tick)
    (h : On b ks ⟨.capturing, n, false, seq⟩ since app)
    (hkeys : Runs.Each lastKeyStep b.GoesOn since keys) :
    ∃ n', On b ks
      ⟨.capturing, n', false, seq ++ (pressedCodes keys).map KeyTable.new.getSubstituteCode⟩
      (Runs.run lastKeyStep since keys) (Runs.run (tick runner) app keys) := by
  induction keys generalizing app n seq since with
  | nil =>
    have hcodes : pressedCodes [] = [] := rfl
    rw [hcodes, List.map_nil, List.append_nil]
    exact ⟨n, h⟩
  | cons t keys ih =>
    obtain ⟨n', hnext⟩ := h.goesOn runner hkeys.1
    obtain ⟨n'', hrun⟩ := ih hnext hkeys.2
    rw [List.append_assoc, ← List.map_append, ← pressedCodes_append] at hrun
    exact ⟨n'', hrun⟩

/-- A tick that ends the capture. -/
theorem On.ends (runner : CommandRunner) (h : On b ks ⟨.capturing, n, false, seq⟩ since app) {t : Tick}
    (ht : ¬ b.GoesOn since t) :
    (app.tick runner t).matcher.state = .idle ∧
      Acted (app.tick runner t) (ks ++ [(seq, b.action seq)]) := by
  have hmatcher : app.matcher = ⟨b.matcher, ⟨.capturing, n, false, seq⟩⟩ := by
    rw [← h.bound.matcher, ← h.context]
  have hdone : ∀ ctx' : MatcherContext, ctx'.state = .idle →
      ({ app with matcher := ⟨b.matcher, ctx'⟩ }.handleCompletedMatch runner
        ⟨.sequenceComplete, seq⟩).matcher.state = .idle ∧
      Acted ({ app with matcher := ⟨b.matcher, ctx'⟩ }.handleCompletedMatch runner
        ⟨.sequenceComplete, seq⟩) (ks ++ [(seq, b.action seq)]) := by
    intro ctx' hidle
    have hacted := h.acted.complete runner ⟨b.matcher, ctx'⟩ ⟨.sequenceComplete, seq⟩
    rw [h.bound.action] at hacted
    refine ⟨?_, hacted⟩
    rw [(handleCompletedMatch_fields runner _ _).1]
    exact hidle
  cases t with
  | key event =>
    rcases event with ⟨code, type, now⟩
    obtain ⟨rfl, rfl⟩ : type = .pressed ∧ code = b.trailer := not_not.mp ht
    have happ : app.tick runner (.key ⟨b.trailer, .pressed, now⟩) =
        { app with matcher := ⟨b.matcher, ⟨.idle, n + 1, false, []⟩⟩ }.handleCompletedMatch runner
          ⟨.sequenceComplete, seq⟩ := by
      have hcode : b.trailer = b.matcher.trailer := rfl
      rw [Application.tick, processKeyEvent, hmatcher]
      simp [SequenceMatcher.processKeyEvent, SequenceMatcher.handleCapturingPress, hcode, processResult]
    rw [happ]
    exact hdone ⟨.idle, n + 1, false, []⟩ rfl
  | check now =>
    have hcapturing : ¬ app.isCapturing = false := by
      rw [show app.isCapturing = true from
        h.sound.held.matcher (congrArg MatcherContext.state h.context)]
      exact Bool.false_ne_true.symm
    have hlate : ¬ millisecondsOf (now - app.lastKeyTime) < app.hotInterval := by
      rw [h.lastKeyTime, h.bound.hotInterval]
      exact ht
    have happ : app.tick runner (.check now) =
        { app with matcher := ⟨b.matcher, ⟨.idle, n, false, []⟩⟩ }.handleCompletedMatch runner
          ⟨.sequenceComplete, seq⟩ := by
      rw [Application.tick, checkTimer, if_neg hcapturing, if_neg hlate, timeOut, hmatcher,
        SequenceMatcher.onTimeout_capturing rfl]
      rfl
    rw [happ]
    exact hdone ⟨.idle, n, false, []⟩ rfl

variable (display font configDirectory dir)

/-- **What is typed is executed.** Wherever a run has got to, if no capture is on and no key
is held, a stretch typed next is looked up and executed when it ends, and the capture is over. -/
theorem typed_executed (es : List Event) (s : Stretch)
    (hidle : (Runs.run (read runner) (new display font configDirectory dir) es).matcher.state = .idle)
    (hfree : keysHeld es = 0) (htyped : s.Typed (bindings configDirectory (readDirectory dir es))) :
    let app := Runs.run (read runner) (new display font configDirectory dir) es
    let app' := Runs.run (tick runner) app s.ticks
    lookedUp app'.calls = lookedUp app.calls ++ [s.sequence] ∧
      executed app'.calls = executed app.calls ++
        ((bindings configDirectory (readDirectory dir es)).action s.sequence).toList ∧
      app'.matcher.state = .idle := by
  intro app app'
  obtain ⟨before, seg, ks, rfl, -, hinside, hacted⟩ :=
    Segments.inside_run (inside_new display font configDirectory dir) ⟨rfl, rfl⟩
      (fun _ _ e _ _ hinside hacted => hinside.advance runner hacted e) es
  have hcontext : app.matcher.context =
      ⟨.idle, 0, app.matcher.context.introducerArmed, app.matcher.context.sequence⟩ := by
    have hstate : app.matcher.context.state = .idle := hidle
    have hcount : app.matcher.context.keysDown = 0 := hinside.keysDown.trans hfree
    rw [← hstate, ← hcount]
  have hon : On (bindings configDirectory (readDirectory dir (before ++ seg))) ks _ app.lastKeyTime app :=
    ⟨bound_of_configuration display font configDirectory _ hinside.configuration, hinside.sound,
      hcontext, rfl, hacted⟩
  have hopen : Capturing (bindings configDirectory (readDirectory dir (before ++ seg))) s.press s.wait
      s.release [] := ⟨htyped.toArmed, htyped.released, htyped.introducer', trivial⟩
  obtain ⟨n, hkeys⟩ := (hon.introducer runner hopen).goesOn_run runner s.keys
    htyped.goesOn
  obtain ⟨hover, hdone⟩ := hkeys.ends runner htyped.ends
  have happ' : app' = tick runner (Runs.run (tick runner) (Runs.run (tick runner) app
      (.key s.press :: (s.wait ++ [.key s.release]))) s.keys) s.last := by
    have hticks : s.ticks = (.key s.press :: (s.wait ++ [.key s.release])) ++ s.keys ++ [s.last] := by
      simp [Stretch.ticks]
    show Runs.run (tick runner) app s.ticks = _
    rw [hticks, Runs.run_append, Runs.run_append]
    rfl
  rw [← happ'] at hover hdone
  refine ⟨?_, ?_, hover⟩
  · rw [hdone.lookedUp, hacted.lookedUp, List.map_append]
    rfl
  · rw [hdone.executed, hacted.executed, List.filterMap_append, filterMap_snd_singleton]
    rfl

/-- Q, typed with the timer looked at in between. -/
def typedQ : Stretch where
  press := ⟨kpkeyShift, .pressed, 0⟩
  wait := []
  release := ⟨kpkeyShift, .released, 10000000⟩
  keys := [.check 20000000, .key ⟨kpkeyQ, .pressed, 30000000⟩, .key ⟨kpkeyQ, .released, 40000000⟩]
  last := .key ⟨kpkeyEnter, .pressed, 50000000⟩

/-- A capture is cut by a reload, and Q typed after it. -/
theorem typed_executed_typedQ :
    executed (Runs.run (tick fun _ _ => 0) (Runs.run (read fun _ _ => 0)
      (new (MockDisplay.new ⟨1, 1, 4⟩) ⟨fun _ => 0⟩ "/".toList noFiles)
      [.tick (.key ⟨kpkeyShift, .pressed, 0⟩), .tick (.key ⟨kpkeyShift, .released, 0⟩),
        .reload (withFile "a.ini".toList "[Actions]\nQ = !x\n".toList)]) typedQ.ticks).calls =
      [⟨"Q".toList, .shell "x".toList⟩] := by
  have htyped : typedQ.Typed (bindings "/".toList
      (withFile "a.ini".toList "[Actions]\nQ = !x\n".toList)) := by
    refine ⟨⟨⟨rfl, by decide +kernel, nofun⟩, rfl, by decide +kernel, by decide +kernel⟩, ?_⟩
    decide +kernel
  have hexecuted := typed_executed (fun _ _ => 0) (MockDisplay.new ⟨1, 1, 4⟩) ⟨fun _ => 0⟩ "/".toList
    noFiles [.tick (.key ⟨kpkeyShift, .pressed, 0⟩), .tick (.key ⟨kpkeyShift, .released, 0⟩),
      .reload (withFile "a.ini".toList "[Actions]\nQ = !x\n".toList)] typedQ (by decide +kernel)
    (by decide +kernel) htyped
  refine hexecuted.2.1.trans ?_
  decide +kernel

end Application
end Launchpad
