/-
# The alarm between two statements

`alarm_handler` of `src/main.c` is a signal handler: it runs when the hotkey
timer runs out, wherever the loop is at that moment, and shares its globals with
`process_input_event`.

An alarm inside an event is an alarm before it or after it, as in `Hotkeys.feed`,
except in two places (`Place.Safe`). While a key is being stored the alarm leaves
that key, or all keys, in the buffer of a capture that is over; and between the
two calls of `engage_hotkey_timer(0)` SIGALRM has its default action, so it ends
the daemon (`round_cases`). A run is a run of `Hotkeys.feed` exactly when no
alarm comes there (`atomic_iff`). Wherever the alarms come, an input that is
grabbed belongs to a capture and a capture is looked up at most once
(`grabs_after`).
-/
import Launchpad.Legacy.Statements

namespace Launchpad
namespace Legacy

open Interrupts Thread

variable {cfg : Config} {d : Daemon} {code : ℤ}

namespace Daemon

/-! ### An alarm during a capture -/

/-- The daemon after the alarm, or the trailer, ended the capture. -/
def ended (cfg : Config) (d : Daemon) : Daemon := d.letGo.write fun s => (s.endCapture cfg).1

@[simp] theorem ended_hot (d : Daemon) : (d.ended cfg).hot = (d.hot.endCapture cfg).1 := by
  rw [ended, write_hot, letGo_hot]

/-- A capture is under way and its timer is set. -/
structure Armed (d : Daemon) : Prop extends Coherent d where
  mode : d.hot.hotkeyMode = true
  set : d.timer = true

theorem Armed.alarm_eq (h : d.Armed) :
    alarm cfg d =
      some (d.ended cfg, endCalls cfg d.hot) := by
  have hhandler : d.hot.alarmHandler cfg false = ((d.hot.endCapture cfg).1, endCalls cfg d.hot) := by
    unfold Hotkeys.alarmHandler
    rw [if_neg Bool.false_ne_true, if_pos h.mode]
    rfl
  have hhot : d.letGo.hot = d.hot := letGo_hot d
  unfold Daemon.alarm
  simp only [h.set, (h.timer h.set).2, hhandler, Bool.true_eq_false, ↓reduceIte]
  unfold ended write
  rw [hhot]
  rfl

theorem Armed.of_write (h : d.Armed) {f : Hotkeys → Hotkeys} (hm : (f d.hot).hotkeyMode = true)
    (hj : (f d.hot).introducerJustPressed = false) : (d.write f).Armed :=
  ⟨h.toCoherent.write (hm.trans h.mode.symm) fun _ => hj, hm, h.set⟩

/-- The alarm leaves nothing to interrupt. -/
theorem Armed.masked (cfg : Config) (h : d.Armed) {t : Stmts Unit} (ht : t.Keeps Calm) :
    Masked (alarm cfg) killed t (d.ended cfg) :=
  masked_of_keeps Calm.masks ht (calm_letGo h.alive)

/-- What is left when the alarm comes while a key is stored. -/
structure Stale (cfg : Config) (o : Outcome Daemon Call Place) : Prop where
  coherent : o.state.Coherent
  mode : o.state.hot.hotkeyMode = false
  length : o.state.hot.hotSequenceLength ≠ 0
  calls : ∃ hot, o.calls = endCalls cfg hot
  struck : ∃ place, o.struck = [place] ∧ ¬ place.Safe cfg

variable {due : List Bool} {o : Outcome Daemon Call Place}

/-- The alarm, and then statements that put something into the buffer. -/
theorem Armed.stale (h : d.Armed) (line : Place) {α : Type}
    {f : Daemon → Option (α × Daemon × List Call)} {next : α → Stmts Unit}
    (hdue : due.headD false = true) (hkeeps : (Thread.stmt line f next).Keeps Calm)
    (hrisky : ¬ line.Safe cfg) (g : Hotkeys → Hotkeys)
    (hexec : (Thread.stmt line f next).exec (d.ended cfg) = some ((), (d.ended cfg).write g, []))
    (hm : (g (d.hot.endCapture cfg).1).hotkeyMode = false)
    (hlen : (g (d.hot.endCapture cfg).1).hotSequenceLength ≠ 0) 
    (ho : interrupted (alarm cfg) killed (Thread.stmt line f next) due d = some o) :
    Stale cfg o := by
  rw [interrupted_struck hdue h.alarm_eq (h.masked cfg hkeeps), hexec] at ho
  cases ho
  have hcoh : (d.letGo.write fun s => g (s.endCapture cfg).1).Coherent := h.toCoherent.letGo hm
  refine ⟨hcoh, ?_, ?_, ⟨d.hot, List.append_nil _⟩, line, rfl, hrisky⟩
  · rw [write_hot, ended_hot]
    exact hm
  · rw [write_hot, ended_hot]
    exact hlen

/-- A key is stored, or the alarm comes in between. -/
theorem Armed.counts (h : d.Armed) (ho : interrupted (alarm cfg) killed countKey due d = some o) :
    Stale cfg o ∨ countKey.exec d = some ((), o.state, o.calls) ∧ o.struck = [] := by
  have hmode : (d.hot.endCapture cfg).1.hotkeyMode = false := endCapture_hotkeyMode _
  have hlen : (d.hot.endCapture cfg).1.hotSequenceLength = 0 := endCapture_hotSequenceLength _
  cases hload : due.headD false with
  | true =>
    refine .inl (h.stale .load hload keeps_countKey id
      (fun s => { s with hotSequenceLength := 1 }) ?_ hmode Nat.one_ne_zero ho)
    show countKey.exec _ = _
    simp [countKey, hlen]
  | false =>
    unfold countKey at ho ⊢
    rw [interrupted_read_bind h.alive hload] at ho
    cases hcount : due.tail.headD false with
    | true =>
      refine .inl (h.stale .count hcount (keeps_write _) id
        (fun s => { s with hotSequenceLength := d.hot.hotSequenceLength + 1 }) ?_ hmode (Nat.succ_ne_zero _) ho)
      rfl
    | false =>
      rw [interrupted_assign h.alive hcount] at ho
      cases ho
      exact .inr ⟨by simp, rfl⟩

theorem Armed.appends (h : d.Armed)
    (ho : interrupted (alarm cfg) killed (appendKey code) due d = some o) :
    Stale cfg o ∨ (appendKey code).exec d = some ((), o.state, o.calls) ∧ o.struck = [] := by
  have hmode : (d.hot.endCapture cfg).1.hotkeyMode = false := endCapture_hotkeyMode _
  have hlen : (d.hot.endCapture cfg).1.hotSequenceLength = 0 := endCapture_hotSequenceLength _
  cases hindex : due.headD false with
  | true =>
    refine .inl (h.stale .index hindex keeps_appendKey id
      (fun s => { s with 
        hotSequence := s.hotSequence.set 0 (Int16.ofInt (getKeySubstituteCode code))
        hotSequenceLength := 1 }) ?_ hmode Nat.one_ne_zero ho)
    show (appendKey code).exec _ = _
    simp [exec_appendKey, hlen, store, maxSeq]
  | false =>
    unfold appendKey at ho ⊢
    rw [interrupted_read_bind h.alive hindex] at ho
    by_cases hroom : d.hot.hotSequenceLength < maxSeq
    · cases hstore : due.tail.headD false with
      | true =>
        refine .inl (h.stale .store hstore (keeps_bind (keeps_store _ code) fun _ => keeps_countKey) id
          (fun s => { s with 
            hotSequence := s.hotSequence.set d.hot.hotSequenceLength (Int16.ofInt (getKeySubstituteCode code)) hroom
            hotSequenceLength := 1 }) ?_ hmode Nat.one_ne_zero ho)
        show (attempt Place.store (store d.hot.hotSequenceLength code) >>= fun _ => countKey).exec _ = _
        simp [hlen, store, hroom, countKey]
      | false =>
        rw [interrupted_attempt_bind h.alive hstore, store, dif_pos hroom, Option.bind_some] at ho
        rcases (h.of_write h.mode (h.just h.mode)).counts ho with hstale | ⟨hexec, hnone⟩
        · exact .inl hstale
        · refine .inr ⟨?_, hnone⟩
          simp [store, hroom, hexec]
    · cases hstore : due.tail.headD false with
      | true =>
        have hmask := h.masked cfg
          (keeps_bind (keeps_store d.hot.hotSequenceLength code) fun _ => keeps_countKey)
        rw [attempt_bind] at hmask ho
        rw [interrupted_struck hstore h.alarm_eq hmask, exec_stmt, store, dif_neg hroom] at ho
        cases ho
      | false =>
        rw [interrupted_attempt_bind h.alive hstore, store, dif_neg hroom] at ho
        cases ho

theorem letGo_letGo (d : Daemon) : d.letGo.letGo = d.letGo := by
  unfold letGo releaseInput
  cases d.inputCaptured <;> rfl

/-- The second of two ends finds nothing to do. -/
theorem endCapture_endCapture (s : Hotkeys) :
    (s.endCapture cfg).1.endCapture cfg = ((s.endCapture cfg).1, []) := by
  have hmode : (s.endCapture cfg).1.hotkeyMode = false := endCapture_hotkeyMode s
  have hlen : (s.endCapture cfg).1.hotSequenceLength = 0 := endCapture_hotSequenceLength s
  generalize (s.endCapture cfg).1 = s' at hmode hlen
  obtain ⟨just, mode, n, seq, len⟩ := s'
  obtain rfl : mode = false := hmode
  obtain rfl : len = 0 := hlen
  rfl

/-- The daemon is killed in the middle of the trailer's branch. -/
def Killed (o : Outcome Daemon Call Place) : Prop :=
  o.state.killed = true ∧ o.state.timer = false ∧ o.calls = [.engageHotkeyTimer 0] ∧
    o.struck = [.setTimer]

/-- The trailer ends the capture, or the alarm does, or it kills the daemon. -/
theorem Armed.trails (h : d.Armed)
    (ho : interrupted (alarm cfg) killed (trailerPressed cfg) due d = some o) :
    Killed o ∨
      (o.state = d.ended cfg ∧
        (o.calls = endCalls cfg d.hot ∧ o.struck = [] ∨
          o.calls = endCalls cfg d.hot ++ [.engageHotkeyTimer 0, .releaseInput] ∧ o.struck = [.signal])) := by
  have hflat : trailerPressed cfg =
      call .signal (fun d => { d with handled := false }) [.engageHotkeyTimer 0] >>= fun _ =>
        assign .setTimer (setitimer 0) >>= fun _ =>
          call .release releaseInput [.releaseInput] >>= fun _ => endSequence cfg := rfl
  cases hsignal : due.headD false with
  | true =>
    have hmask : Masked (alarm cfg) killed (trailerPressed cfg) (d.ended cfg) :=
      h.masked cfg keeps_trailerPressed
    have hexec : (trailerPressed cfg).exec (d.ended cfg) = _ := exec_trailerPressed (d.ended cfg)
    rw [hflat, call_bind] at hmask ho hexec
    rw [interrupted_struck hsignal h.alarm_eq hmask, hexec] at ho
    cases ho
    refine .inr ⟨?_, .inr ⟨?_, rfl⟩⟩
    · simp [ended, letGo_letGo, endCapture_endCapture]
    · simp [endCalls, endCapture_endCapture]
  | false =>
    rw [hflat, interrupted_call_bind h.alive hsignal] at ho
    cases hset : due.tail.headD false with
    | true =>
      have halarm : alarm cfg { d with handled := false } =
          some ({ d with handled := false, timer := false, killed := true }, []) := by
        simp [Daemon.alarm, h.set]
      rw [assign_bind, interrupted_stopped hset halarm rfl] at ho
      cases ho
      exact .inl ⟨rfl, rfl, rfl, rfl⟩
    | false =>
      have halive : ({ d with handled := false } : Daemon).killed = false := h.alive
      rw [interrupted_assign_bind halive hset] at ho
      have hkeeps : (call .release releaseInput [.releaseInput] >>= fun _ =>
          endSequence cfg).Keeps Calm :=
        keeps_bind (keeps_call fun _ hd => hd.releaseInput) fun _ => keeps_endSequence
      have hcalm : Calm { d with handled := false, timer := false } := ⟨rfl, h.alive⟩
      have hmask : Masked (alarm cfg) killed _ _ := masked_of_keeps Calm.masks hkeeps hcalm
      have hset0 : setitimer 0 { d with handled := false } = { d with handled := false, timer := false } :=
        rfl
      rw [hset0, interrupted_of_masked hmask] at ho
      have hhot : ({ d with handled := false, timer := false } : Daemon).releaseInput.hot = d.hot :=
        letGo_hot d
      simp only [exec_bind, exec_call, Option.bind_some, exec_endSequence, hhot, Option.map_some,
        Option.some.injEq] at ho
      subst ho
      exact .inr ⟨rfl, .inl ⟨rfl, rfl⟩⟩

/-- The alarm ended the capture, and the trailer's branch found nothing to do. -/
def Behind (cfg : Config) (d : Daemon) (code : ℤ) (o : Outcome Daemon Call Place) : Prop :=
  code = cfg.trailer ∧ o.state = d.ended cfg ∧
    o.calls = endCalls cfg d.hot ++ [.engageHotkeyTimer 0, .releaseInput] ∧
    ∃ place : Place, o.struck = [place] ∧ place.Safe cfg

theorem Armed.captures (h : d.Armed)
    (ho : interrupted (alarm cfg) killed (capturedKey cfg code) due d = some o) :
    Killed o ∨ Stale cfg o ∨ Behind cfg d code o ∨
      (capturedKey cfg code).exec d = some ((), o.state, o.calls) ∧ o.struck = [] := by
  have hmask : Masked (alarm cfg) killed (capturedKey cfg code) (d.ended cfg) :=
    h.masked cfg keeps_capturedKey
  cases hfirst : due.headD false with
  | true =>
    by_cases ht : code = cfg.trailer
    · have hrun := (interrupted_struck hfirst h.alarm_eq hmask).symm.trans ho
      have hexec : (capturedKey cfg code).exec (d.ended cfg) =
          some ((), d.ended cfg, [.engageHotkeyTimer 0, .releaseInput]) := by
        rw [exec_capturedKey, if_pos ht, exec_trailerPressed]
        simp [ended, letGo_letGo, endCapture_endCapture, endCalls]
      cases (congrArg (Option.map _) hexec).symm.trans hrun
      exact .inr (.inr (.inl ⟨ht, rfl, rfl, _, rfl, ht⟩))
    · have hmode : (d.hot.endCapture cfg).1.hotkeyMode = false := endCapture_hotkeyMode _
      have hlen : (d.hot.endCapture cfg).1.hotSequenceLength = 0 := endCapture_hotSequenceLength _
      refine .inr (.inl (h.stale (.isTrailer code) hfirst keeps_capturedKey ht (fun s => { s with
        hotSequence := s.hotSequence.set 0 (Int16.ofInt (getKeySubstituteCode code))
        hotSequenceLength := 1 }) ?_ hmode Nat.one_ne_zero ho))
      show (capturedKey cfg code).exec _ = _
      rw [exec_capturedKey, if_neg ht]
      simp [exec_appendKey, hlen, store, maxSeq]
  | false =>
    unfold capturedKey at ho
    rw [interrupted_read_bind h.alive hfirst] at ho
    rw [exec_capturedKey]
    by_cases ht : code = cfg.trailer
    · simp only [ht, decide_true, ↓reduceIte] at ho ⊢
      rcases h.trails ho with hkilled | ⟨hstate, ⟨hcalls, hnone⟩ | ⟨hcalls, hstruck⟩⟩
      · exact .inl hkilled
      · refine .inr (.inr (.inr ⟨?_, hnone⟩))
        rw [exec_trailerPressed, hstate, hcalls]
        rfl
      · exact .inr (.inr (.inl ⟨rfl, hstate, hcalls, .signal, hstruck, trivial⟩))
    · simp only [ht, decide_false, Bool.false_eq_true, ↓reduceIte] at ho ⊢
      rcases h.appends ho with hstale | hexec
      · exact .inr (.inl hstale)
      · exact .inr (.inr (.inr hexec))

/-! ### A round is its work, with an alarm before or after it -/

/-- From `s` the inputs lead to `s'` with those calls. -/
def Leads (cfg : Config) (s : Hotkeys) (is : List Input) (s' : Hotkeys) (calls : List Call) : Prop :=
  Runs.run? (Hotkeys.feed cfg) s is = some s' ∧
    (Runs.answers? (Hotkeys.feed cfg) s is).map List.flatten = some calls

/-- The round is a step of `feed`, and one more if an alarm came. -/
structure AsFed (cfg : Config) (d : Daemon) (w : Work) (o : Outcome Daemon Call Place) : Prop where
  coherent : o.state.Coherent
  safe : ∀ place ∈ o.struck, place.Safe cfg
  fed : ∃ is : List Input, is.filterMap Input.work = [w] ∧
    is.countP (·.work.isNone) = o.struck.length ∧ Leads cfg d.hot is o.state.hot o.calls

theorem work_input (w : Work) : w.input.work = some w := by
  cases w <;> rfl

theorem asFed_of_exec (hd : d.Coherent) {w : Work}
    (hexec : (w.thread cfg).exec d = some ((), o.state, o.calls)) (hnone : o.struck = []) :
    AsFed cfg d w o := by
  obtain ⟨hfeed, hcoh⟩ := does_thread cfg hd w
  rw [hexec] at hfeed
  refine ⟨hcoh _ hexec, by simp [hnone], [w.input], ?_, ?_, ?_, ?_⟩
  · simp [work_input]
  · simp [work_input, hnone]
  · simp [Runs.run?, ← hfeed]
  · simp [Runs.answers?, ← hfeed]

theorem feed_alarm {s : Hotkeys} (hm : s.hotkeyMode = true) :
    s.feed cfg (.alarm false) = some ((s.endCapture cfg).1, endCalls cfg s) := by
  simp [Hotkeys.feed, Hotkeys.alarmHandler, hm, endCalls]

/-- The alarm comes first. -/
theorem Armed.asFed_before (h : d.Armed) {w : Work} (place : Place) (hsafe : place.Safe cfg)
    (ho : ((w.thread cfg).exec (d.ended cfg)).map
      (fun r => (⟨r.2.1, endCalls cfg d.hot ++ r.2.2, [place]⟩ : Outcome Daemon Call Place)) = some o) :
    AsFed cfg d w o := by
  have hcoh : (d.ended cfg).Coherent := h.toCoherent.letGo (endCapture_hotkeyMode _)
  obtain ⟨hfeed, hcoh'⟩ := does_thread cfg hcoh w
  obtain ⟨r, hr, rfl⟩ := Option.map_eq_some_iff.mp ho
  rw [hr, ended_hot] at hfeed
  have halarm : d.hot.feed cfg (.alarm false) = _ := feed_alarm h.mode
  have hnone : (Input.alarm false).work = none := rfl
  refine ⟨hcoh' r hr, by simpa using hsafe, [.alarm false, w.input], ?_, ?_, ?_, ?_⟩
  · simp [work_input, hnone]
  · simp [work_input, hnone]
  · simp [Runs.run?, halarm, ← hfeed]
  · simp [Runs.answers?, halarm, ← hfeed]

/-- The alarm leaves the counter of keys alone. -/
theorem ended_npressed (cfg : Config) (g : ℤ → ℤ) (d : Daemon) :
    (d.write fun s => { s with npressed := g s.npressed }).ended cfg =
        (d.ended cfg).write (fun s => { s with npressed := g s.npressed }) ∧
      endCalls cfg (d.write fun s => { s with npressed := g s.npressed }).hot = endCalls cfg d.hot := by
  have hend : ∀ s : Hotkeys, ({ s with npressed := g s.npressed } : Hotkeys).endCapture cfg =
      ({ (s.endCapture cfg).1 with npressed := g (s.endCapture cfg).1.npressed }, (s.endCapture cfg).2) := by
    intro s
    unfold Hotkeys.endCapture
    dsimp only
    split
    · split <;> rfl
    · rfl
  unfold ended endCalls
  simp [hend]

/-- An alarm before one of the first two statements comes first: the counter of
keys is nothing to it. -/
theorem Armed.first_two (h : d.Armed) {w : Work} (line line' : Place) (hsafe : line.Safe cfg)
    (hsafe' : line'.Safe cfg) (g : ℤ → ℤ) {α : Type} {f : Daemon → Option (α × Daemon × List Call)}
    {next : α → Stmts Unit}
    (hthread : w.thread cfg =
      assign line (write fun s => { s with npressed := g s.npressed }) >>= fun _ => .stmt line' f next)
    (ho : interrupted (alarm cfg) killed (w.thread cfg) due d = some o) :
    AsFed cfg d w o ∨ due.tail.headD false = false ∧
      interrupted (alarm cfg) killed (.stmt line' f next) due.tail
        (d.write fun s => { s with npressed := g s.npressed }) = some o := by
  have hcalm : (d.ended cfg).Calm := calm_letGo h.alive
  have hmask : Masked (alarm cfg) killed (w.thread cfg) (d.ended cfg) := masked_thread hcalm w
  have hw : (d.write fun s => { s with npressed := g s.npressed }).Armed :=
    h.of_write h.mode (h.just h.mode)
  rw [hthread] at hmask ho
  cases hfirst : due.headD false with
  | true =>
    refine .inl (h.asFed_before line hsafe (Eq.trans ?_ ho))
    rw [hthread]
    exact (interrupted_struck hfirst h.alarm_eq hmask).symm
  | false =>
    cases hsecond : due.tail.headD false with
    | true =>
      obtain ⟨hstate, hcalls⟩ := ended_npressed cfg g d
      have halarm : alarm cfg _ = _ := hw.alarm_eq
      rw [hstate, hcalls] at halarm
      refine .inl (h.asFed_before line' hsafe' (Eq.trans ?_ ho))
      rw [hthread]
      exact (interrupted_put_off h.alive hfirst hsecond halarm (hmask.2.2 _ rfl)).symm
    | false =>
      rw [interrupted_assign_bind h.alive hfirst] at ho
      exact .inr ⟨rfl, ho⟩

theorem Armed.ticks (h : d.Armed)
    (ho : interrupted (alarm cfg) killed (Work.idle.thread cfg) due d = some o) :
    AsFed cfg d .idle o := by
  have hw : (d.write fun s => { s with npressed := 0 }).Armed := h.of_write h.mode (h.just h.mode)
  rcases h.first_two .noKeys .noSequence trivial trivial (fun _ => 0) rfl ho with
    hfed | ⟨hsecond, hrest⟩
  · exact hfed
  · have hlast : interrupted (alarm cfg) killed
        (assign Place.noSequence (write fun s => { s with hotSequenceLength := 0 })) due.tail
        (d.write fun s => { s with npressed := 0 }) = _ := interrupted_assign hw.alive hsecond _ _
    rw [assign] at hlast
    cases hlast.symm.trans hrest
    exact asFed_of_exec h.toCoherent rfl rfl

theorem Armed.releases (h : d.Armed) {w : Work} (hthread : w.thread cfg = keyReleased cfg code)
    (ho : interrupted (alarm cfg) killed (w.thread cfg) due d = some o) : AsFed cfg d w o := by
  have hw : (d.write fun s => { s with npressed := s.npressed - 1 }).Armed :=
    h.of_write h.mode (h.just h.mode)
  have hj : d.hot.introducerJustPressed = false := h.just h.mode
  rcases h.first_two .countDown .isTap trivial trivial (fun n => n - 1) hthread ho with
    hfed | ⟨hsecond, hrest⟩
  · exact hfed
  · rw [interrupted_false hw.alive hsecond] at hrest
    simp only [write_hot, hj, Bool.false_eq_true, and_false, decide_false] at hrest
    cases hrest
    refine asFed_of_exec h.toCoherent ?_ rfl
    rw [hthread]
    simp [keyReleased, hj]

theorem leads_trailer {s : Hotkeys} {ev : InputEvent} (hk : ev.type = evKey) (h1 : ev.value = 1)
    (ht : ev.code = cfg.trailer) (hm : s.hotkeyMode = true) :
    s.feed cfg (.event ev) =
      some ((({ s with npressed := s.npressed + 1 } : Hotkeys).endCapture cfg).1,
        endCalls cfg { s with npressed := s.npressed + 1 }) := by
  simp [Hotkeys.feed, Hotkeys.processInputEvent, Hotkeys.keyPressed, hk, h1, ht, hm, endCalls]

/-- Once the capture has ended the alarm has nothing to do but call. -/
theorem feed_alarm_idle {s : Hotkeys} (hm : s.hotkeyMode = false) :
    s.feed cfg (.alarm false) = some (s, [.engageHotkeyTimer 0, .releaseInput]) := by
  simp [Hotkeys.feed, Hotkeys.alarmHandler, hm]

/-- An alarm in the branch of the trailer comes after the event. -/
theorem asFed_behind (hd : d.Coherent) {ev : InputEvent} (hk : ev.type = evKey) (h1 : ev.value = 1)
    (ht : ev.code = cfg.trailer) (hm : d.hot.hotkeyMode = true) {place : Place}
    (hsafe : place.Safe cfg)
    (hstate : o.state = (d.write fun s => { s with npressed := s.npressed + 1 }).ended cfg)
    (hcalls : o.calls = endCalls cfg { d.hot with npressed := d.hot.npressed + 1 } ++
      [.engageHotkeyTimer 0, .releaseInput]) (hstruck : o.struck = [place]) :
    AsFed cfg d (.event ev) o := by
  have hw : (d.write fun s => { s with npressed := s.npressed + 1 }).Coherent := hd.write rfl hd.just
  have hfeed := leads_trailer hk h1 ht hm
  have hmode : (({ d.hot with npressed := d.hot.npressed + 1 } : Hotkeys).endCapture cfg).1.hotkeyMode =
      false := endCapture_hotkeyMode _
  have halarm : Hotkeys.feed cfg _ (.alarm false) = _ := feed_alarm_idle hmode
  have hevent : (Input.event ev).work = some (.event ev) := rfl
  have hnone : (Input.alarm false).work = none := rfl
  refine ⟨?_, by simpa [hstruck] using hsafe, [.event ev, .alarm false], ?_, ?_, ?_, ?_⟩
  · rw [hstate]
    exact hw.letGo (endCapture_hotkeyMode _)
  · simp [hevent, hnone]
  · simp [hevent, hnone, hstruck]
  · simp [Runs.run?, hfeed, halarm, hstate]
  · simp [Runs.answers?, hfeed, halarm, hcalls]

theorem Armed.presses (h : d.Armed) {ev : InputEvent} (hk : ev.type = evKey) (h1 : ev.value = 1)
    (ho : interrupted (alarm cfg) killed ((Work.event ev).thread cfg) due d = some o) :
    Killed o ∨ Stale cfg o ∨ AsFed cfg d (.event ev) o := by
  have hthread : (Work.event ev).thread cfg = keyPressed cfg ev.code := by
    simp [Work.thread, processInputEvent, hk, h1]
  have hw : (d.write fun s => { s with npressed := s.npressed + 1 }).Armed :=
    h.of_write h.mode (h.just h.mode)
  rcases h.first_two .countUp .mode trivial trivial (fun n => n + 1) hthread ho with
    hfed | ⟨hsecond, hrest⟩
  · exact .inr (.inr hfed)
  · have hbranch : interrupted (alarm cfg) killed (capturedKey cfg ev.code) due.tail.tail
        (d.write fun s => { s with npressed := s.npressed + 1 }) = some o := by
      rw [interrupted_false hw.alive hsecond, Option.bind_some] at hrest
      simp only [write_hot, h.mode] at hrest
      rw [← hrest]
      exact Option.map_id'.symm
    rcases hw.captures hbranch with hkilled | hstale | ⟨ht, hstate, hcalls, place, hstruck, hsafe⟩ | ⟨hexec, hnone⟩
    · exact .inl hkilled
    · exact .inr (.inl hstale)
    · exact .inr (.inr (asFed_behind h.toCoherent hk h1 ht h.mode hsafe hstate hcalls hstruck))
    · refine .inr (.inr (asFed_of_exec h.toCoherent ?_ hnone))
      rw [hthread]
      simp [keyPressed, h.mode, hexec]

/-- **One round.** It is its work with an alarm before or after it if one came, or
the alarm killed the daemon or came while a key was stored. -/
theorem round_cases (hd : d.Coherent) (r : Round) (ho : d.round cfg r = some o) :
    Killed o ∨ d.hot.hotkeyMode = true ∧ Stale cfg o ∨ AsFed cfg d r.work o := by
  by_cases ht : d.timer = true
  · have h : d.Armed := ⟨hd, (hd.timer ht).1, ht⟩
    obtain ⟨w, due⟩ := r
    unfold round at ho
    dsimp only at ho ⊢
    cases w with
    | idle => exact .inr (.inr (h.ticks ho))
    | event ev =>
      by_cases hk : ev.type = evKey
      · by_cases h1 : ev.value = 1
        · rcases h.presses hk h1 ho with hkilled | hstale | hfed
          · exact .inl hkilled
          · exact .inr (.inl ⟨h.mode, hstale⟩)
          · exact .inr (.inr hfed)
        · by_cases h0 : ev.value = 0
          · have hthread : (Work.event ev).thread cfg = keyReleased cfg ev.code := by
              simp [Work.thread, processInputEvent, hk, h0]
            exact .inr (.inr (h.releases hthread ho))
          · have hthread : (Work.event ev).thread cfg = pure () := by
              simp [Work.thread, processInputEvent, hk, h1, h0]
            rw [hthread] at ho
            cases ho
            exact .inr (.inr (asFed_of_exec hd (by rw [hthread]; rfl) rfl))
      · have hthread : (Work.event ev).thread cfg = pure () := by
          simp [Work.thread, processInputEvent, hk]
        rw [hthread] at ho
        cases ho
        exact .inr (.inr (asFed_of_exec hd (by rw [hthread]; rfl) rfl))
  · have hcalm : d.Calm := ⟨by simpa using ht, hd.alive⟩
    rw [round, interrupted_of_masked (masked_thread hcalm r.work)] at ho
    obtain ⟨q, hq, rfl⟩ := Option.map_eq_some_iff.mp ho
    exact .inr (.inr (asFed_of_exec hd hq rfl))

/-! ### Whole runs -/

theorem Leads.append {s s' s'' : Hotkeys} {is js : List Input} {cs cs' : List Call}
    (h : Leads cfg s is s' cs) (h' : Leads cfg s' js s'' cs') :
    Leads cfg s (is ++ js) s'' (cs ++ cs') := by
  obtain ⟨hrun, hans⟩ := h
  obtain ⟨hrun', hans'⟩ := h'
  obtain ⟨as, has, rfl⟩ := Option.map_eq_some_iff.mp hans
  obtain ⟨bs, hbs, rfl⟩ := Option.map_eq_some_iff.mp hans'
  refine ⟨?_, ?_⟩
  · rw [Runs.run?_append, hrun]
    exact hrun'
  · rw [Runs.answers?_append _ _ _ _ _ hrun, has, hbs]
    simp

/-- Outside a capture the buffer is empty. -/
def Clean (s : Hotkeys) : Prop := s.hotkeyMode = false → s.hotSequenceLength = 0

theorem clean_feed {s : Hotkeys} (hs : Clean s) {i : Input} {r : Hotkeys × List Call}
    (hr : s.feed cfg i = some r) : Clean r.1 := by
  cases i with
  | event ev =>
    simp only [Hotkeys.feed, Hotkeys.processInputEvent] at hr
    split at hr
    · split at hr
      · unfold Hotkeys.keyPressed at hr
        by_cases hm : s.hotkeyMode = false
        · simp only [hm, ↓reduceIte] at hr
          split at hr <;> cases hr <;> exact fun _ => hs hm
        · have hm' : s.hotkeyMode = true := by simpa using hm
          simp only [hm', Bool.true_eq_false, ↓reduceIte] at hr
          split at hr
          · cases hr
            exact fun _ => endCapture_hotSequenceLength _
          · split at hr
            · cases hr
              exact fun hnot => absurd hnot.symm Bool.false_ne_true
            · cases hr
      · split at hr
        · cases hr
          unfold Hotkeys.keyReleased
          dsimp only
          split
          · exact fun hnot => absurd hnot.symm Bool.false_ne_true
          · exact hs
        · cases hr
          exact hs
    · cases hr
      exact hs
  | alarm timerRunning =>
    simp only [Hotkeys.feed, Option.some.injEq] at hr
    subst hr
    unfold Hotkeys.alarmHandler
    split
    · exact hs
    · split
      · exact fun _ => endCapture_hotSequenceLength s
      · exact hs
  | idle =>
    simp only [Hotkeys.feed, Option.some.injEq] at hr
    subst hr
    exact fun _ => rfl

theorem clean_of_leads {is : List Input} {s : Hotkeys} {cs : List Call} (h : Leads cfg {} is s cs) :
    Clean s := by
  have hrun := h.1
  clear h
  induction is using List.reverseRecOn generalizing s with
  | nil =>
    cases hrun
    exact fun _ => rfl
  | append_singleton is i ih =>
    rw [Runs.run?_append] at hrun
    obtain ⟨s', hs', hlast⟩ := Option.bind_eq_some_iff.mp hrun
    obtain ⟨r, hr, hend⟩ := Option.bind_eq_some_iff.mp hlast
    cases hend
    exact clean_feed (ih hs') hr

end Daemon

open Daemon

/-- The log is that of a run of `Hotkeys.feed` which reads the works in order, and
one alarm for every alarm that came. -/
def Atomic (cfg : Config) (works : List Work) (l : Log) : Prop :=
  l.daemon.killed = false ∧ ∃ is : List Input, is.filterMap Input.work = works ∧
    is.countP (·.work.isNone) = l.struck.length ∧ Leads cfg {} is l.daemon.hot l.calls

theorem Log.after_concat (cfg : Config) (rounds : List Round) (r : Round) :
    Log.after cfg (rounds ++ [r]) = (Log.after cfg rounds).bind fun l => l.round cfg r := by
  unfold Log.after
  rw [List.foldlM_append]
  exact congrArg (Option.bind _) (funext fun l => Option.bind_fun_some _)

theorem coherent_start : ({} : Daemon).Coherent :=
  ⟨rfl, rfl, rfl, fun h => absurd h Bool.false_ne_true, fun h => absurd h Bool.false_ne_true⟩

/-- One more round of an atomic run. -/
theorem atomic_concat {works : List Work} {l l' : Log} {r : Round} (h : Atomic cfg works l)
    (hcoh : l.daemon.Coherent) (hsafe : ∀ place ∈ l.struck, place.Safe cfg)
    (hr : l.round cfg r = some l') :
    ((∀ place ∈ l'.struck, place.Safe cfg) ∧ l'.daemon.Coherent ∧ Atomic cfg (works ++ [r.work]) l') ∨
      ¬ (∀ place ∈ l'.struck, place.Safe cfg) ∧ ¬ Atomic cfg (works ++ [r.work]) l' := by
  obtain ⟨o, ho, rfl⟩ := Option.map_eq_some_iff.mp hr
  rcases round_cases hcoh r ho with ⟨hkilled, -, -, hstruck⟩ | ⟨-, hstale⟩ | hfed
  · refine .inr ⟨fun hall => ?_, fun hatomic => ?_⟩
    · exact hall .setTimer (by simp [hstruck])
    · exact absurd (hkilled.symm.trans hatomic.1) (by simp)
  · refine .inr ⟨fun hall => ?_, fun hatomic => ?_⟩
    · obtain ⟨place, hstruck, hrisky⟩ := hstale.struck
      exact hrisky (hall place (by simp [hstruck]))
    · obtain ⟨-, is, -, -, hleads⟩ := hatomic
      exact hstale.length (clean_of_leads hleads hstale.mode)
  · obtain ⟨halive, is, hworks, hcount, hleads⟩ := h
    obtain ⟨js, hjs, hcount', hleads'⟩ := hfed.fed
    refine .inl ⟨fun place hplace => ?_, hfed.coherent, hfed.coherent.alive, is ++ js, ?_, ?_, ?_⟩
    · rcases List.mem_append.mp hplace with hold | hnew
      · exact hsafe place hold
      · exact hfed.safe place hnew
    · rw [List.filterMap_append, hworks, hjs]
    · rw [List.countP_append, List.length_append, hcount, hcount']
    · exact hleads.append hleads'

/-- Every boundary between two rounds is one of a run of `Hotkeys.feed`. -/
def Linear (cfg : Config) (rounds : List Round) : Prop :=
  ∀ pre, pre <+: rounds → ∃ l, Log.after cfg pre = some l ∧ Atomic cfg (pre.map Round.work) l

theorem linear_concat_iff {rounds : List Round} {r : Round} {l : Log}
    (hl : Log.after cfg (rounds ++ [r]) = some l) :
    Linear cfg (rounds ++ [r]) ↔ Linear cfg rounds ∧ Atomic cfg ((rounds ++ [r]).map Round.work) l := by
  constructor
  · intro h
    refine ⟨fun pre hpre => h pre (hpre.trans (List.prefix_append _ _)), ?_⟩
    obtain ⟨l', hl', hatomic⟩ := h _ List.prefix_rfl
    cases hl.symm.trans hl'
    exact hatomic
  · rintro ⟨h, hatomic⟩ pre hpre
    rcases List.prefix_concat_iff.mp hpre with rfl | hpre
    · exact ⟨l, hl, hatomic⟩
    · exact h pre hpre

theorem atomic_start (cfg : Config) : Atomic cfg [] {} :=
  ⟨rfl, [], rfl, rfl, rfl, rfl⟩

theorem atomic_iff_of_after {rounds : List Round} {l : Log} (hl : Log.after cfg rounds = some l) :
    (Linear cfg rounds ↔ ∀ place ∈ l.struck, place.Safe cfg) ∧
      ((∀ place ∈ l.struck, place.Safe cfg) → l.daemon.Coherent ∧ Atomic cfg (rounds.map Round.work) l) := by
  induction rounds using List.reverseRecOn generalizing l with
  | nil =>
    cases hl
    refine ⟨⟨fun _ place hplace => absurd hplace List.not_mem_nil, fun _ pre hpre => ?_⟩, fun _ => ?_⟩
    · cases List.prefix_nil.mp hpre
      exact ⟨{}, rfl, atomic_start cfg⟩
    · exact ⟨coherent_start, atomic_start cfg⟩
  | append_singleton rounds r ih =>
    have hstep := hl
    rw [Log.after_concat] at hstep
    obtain ⟨l₀, hl₀, hr⟩ := Option.bind_eq_some_iff.mp hstep
    obtain ⟨hiff, hinv⟩ := ih hl₀
    have hmap : (rounds ++ [r]).map Round.work = rounds.map Round.work ++ [r.work] := List.map_append
    have hold : (∀ place ∈ l.struck, place.Safe cfg) → ∀ place ∈ l₀.struck, place.Safe cfg := by
      obtain ⟨o, -, rfl⟩ := Option.map_eq_some_iff.mp hr
      exact fun hall place hplace => hall place (List.mem_append_left _ hplace)
    rw [linear_concat_iff hl, hmap]
    constructor
    · constructor
      · rintro ⟨hlinear, hatomic⟩
        obtain ⟨hcoh, hatomic₀⟩ := hinv (hiff.mp hlinear)
        rcases atomic_concat hatomic₀ hcoh (hiff.mp hlinear) hr with hgood | hbad
        · exact hgood.1
        · exact absurd hatomic hbad.2
      · intro hall
        obtain ⟨hcoh, hatomic₀⟩ := hinv (hold hall)
        rcases atomic_concat hatomic₀ hcoh (hold hall) hr with hgood | hbad
        · exact ⟨hiff.mpr (hold hall), hgood.2.2⟩
        · exact absurd hall hbad.1
    · intro hall
      obtain ⟨hcoh, hatomic₀⟩ := hinv (hold hall)
      rcases atomic_concat hatomic₀ hcoh (hold hall) hr with hgood | hbad
      · exact hgood.2
      · exact absurd hall hbad.1

/-- A tap of the key `code`. -/
def tapped (code : ℤ) : List Round :=
  [⟨.event ⟨evKey, code, 1⟩, []⟩, ⟨.event ⟨evKey, code, 0⟩, []⟩]

/-- One statement later it kills the daemon, the devices still grabbed. -/
example :
    (Log.after ⟨42, 28, 1000, []⟩
      (tapped 42 ++ tapped 30 ++ [⟨.event ⟨evKey, 28, 1⟩, [false, false, false, false, true]⟩])).map
      (fun l => (l.daemon.killed, l.daemon.grabbed)) = some (true, true) := by decide

/-! ### Grabs and lookups, wherever the alarms come -/

/-- The captures begun by the calls. -/
def captures (calls : List Call) : ℕ := calls.count .captureInput

theorem lookups_append (cs cs' : List Call) : lookups (cs ++ cs') = lookups cs ++ lookups cs' :=
  List.filterMap_append

theorem lookups_endCalls_length_le (s : Hotkeys) : (lookups (endCalls cfg s)).length ≤ 1 := by
  have hcalls : lookups (endCalls cfg s) = lookups (s.endCapture cfg).2 := rfl
  rw [hcalls, Hotkeys.lookups_endCapture]
  split <;> simp

/-- A step looks up a sequence only as it leaves a capture. -/
theorem lookups_feed {s : Hotkeys} {i : Input} {r : Hotkeys × List Call} (hr : s.feed cfg i = some r) :
    (lookups r.2).length + r.1.hotkeyMode.toNat ≤ s.hotkeyMode.toNat + captures r.2 := by
  have hend : ∀ s : Hotkeys, (lookups (endCalls cfg s)).length + (s.endCapture cfg).1.hotkeyMode.toNat ≤ 1 := by
    intro s
    rw [endCapture_hotkeyMode]
    exact lookups_endCalls_length_le s
  cases i with
  | event ev =>
    simp only [Hotkeys.feed, Hotkeys.processInputEvent] at hr
    split at hr
    · split at hr
      · unfold Hotkeys.keyPressed at hr
        by_cases hm : s.hotkeyMode = false
        · simp only [hm, ↓reduceIte] at hr
          split at hr <;> cases hr <;> simp [lookups, captures, hm]
        · have hm' : s.hotkeyMode = true := by simpa using hm
          simp only [hm', Bool.true_eq_false, ↓reduceIte] at hr
          split at hr
          · cases hr
            rw [hm']
            exact (hend { s with npressed := s.npressed + 1 }).trans (Nat.le_add_right 1 _)
          · split at hr
            · cases hr
              simp [lookups, captures, hm']
            · cases hr
      · split at hr
        · cases hr
          unfold Hotkeys.keyReleased
          dsimp only
          split <;> simp [lookups, captures]
        · cases hr
          simp [lookups, captures]
    · cases hr
      simp [lookups, captures]
  | alarm timerRunning =>
    simp only [Hotkeys.feed, Option.some.injEq] at hr
    subst hr
    unfold Hotkeys.alarmHandler
    split
    · simp [lookups, captures]
    · split
      · rename_i hm
        rw [hm]
        exact (hend s).trans (Nat.le_add_right 1 _)
      · rename_i hm
        simp [lookups, captures, hm]
  | idle =>
    simp only [Hotkeys.feed, Option.some.injEq] at hr
    subst hr
    simp [lookups, captures, Hotkeys.idleTick]

theorem lookups_leads {s s' : Hotkeys} {is : List Input} {cs : List Call} (h : Leads cfg s is s' cs) :
    (lookups cs).length + s'.hotkeyMode.toNat ≤ s.hotkeyMode.toNat + captures cs := by
  induction is generalizing s cs with
  | nil =>
    obtain ⟨hrun, hans⟩ := h
    cases hrun
    cases hans
    simp [lookups]
  | cons i is ih =>
    obtain ⟨hrun, hans⟩ := h
    obtain ⟨r, hr, hrest⟩ := Option.bind_eq_some_iff.mp hrun
    simp only [Runs.answers?, hr, Option.bind_some, Option.map_map] at hans
    obtain ⟨as, has, rfl⟩ := Option.map_eq_some_iff.mp hans
    have hstep := lookups_feed hr
    have hle := ih ⟨hrest, by rw [has]; rfl⟩
    show (lookups (r.2 ++ as.flatten)).length + _ ≤ _ + captures (r.2 ++ as.flatten)
    rw [lookups_append, List.length_append, captures, List.count_append]
    unfold captures at hstep hle
    omega

/-- What holds between any two rounds: no capture was looked up twice, the grab, the
timer and the mode agree unless the daemon was killed, and then no alarm comes. -/
structure Log.Kept (l : Log) : Prop where
  once : (lookups l.calls).length ≤ captures l.calls
  alive : l.daemon.killed = false → l.daemon.Coherent ∧
    (lookups l.calls).length + l.daemon.hot.hotkeyMode.toNat ≤ captures l.calls
  killed : l.daemon.killed = true → l.daemon.timer = false

/-- One round adds the lookups of its captures. -/
theorem Log.Kept.round {l l' : Log} {r : Round} (h : l.Kept) (hr : l.round cfg r = some l') : l'.Kept := by
  obtain ⟨o, ho, rfl⟩ := Option.map_eq_some_iff.mp hr
  have hcalls : (lookups (l.calls ++ o.calls)).length = (lookups l.calls).length + (lookups o.calls).length ∧
      captures (l.calls ++ o.calls) = captures l.calls + captures o.calls := by
    rw [lookups_append, List.length_append]
    exact ⟨rfl, List.count_append⟩
  cases hk : l.daemon.killed with
  | true =>
    have hnone : alarm cfg l.daemon = none := if_pos (h.killed hk)
    unfold Daemon.round at ho
    rw [interrupted_of_stopped hnone hk] at ho
    cases ho
    refine ⟨?_, fun halive => absurd (halive.symm.trans hk) Bool.false_ne_true, fun _ => h.killed hk⟩
    rw [List.append_nil]
    exact h.once
  | false =>
    obtain ⟨hcoh, hle⟩ := h.alive hk
    rcases round_cases hcoh r ho with ⟨hkilled, htimer, hout, -⟩ | ⟨hmode, hstale⟩ | hfed
    · have hnone : (lookups o.calls).length = 0 ∧ captures o.calls = 0 := by
        rw [hout]
        exact ⟨rfl, rfl⟩
      refine ⟨?_, fun halive => absurd (halive.symm.trans hkilled) Bool.false_ne_true, fun _ => htimer⟩
      show (lookups (l.calls ++ o.calls)).length ≤ captures (l.calls ++ o.calls)
      omega
    · obtain ⟨hot, hout⟩ := hstale.calls
      have hlook : (lookups o.calls).length ≤ 1 := by
        rw [hout]
        exact lookups_endCalls_length_le hot
      have hone : l.daemon.hot.hotkeyMode.toNat = 1 := by rw [hmode]; rfl
      have hzero : o.state.hot.hotkeyMode.toNat = 0 := by rw [hstale.mode]; rfl
      refine ⟨?_, fun _ => ⟨hstale.coherent, ?_⟩, fun hkilled => ?_⟩
      · show (lookups (l.calls ++ o.calls)).length ≤ captures (l.calls ++ o.calls)
        omega
      · show (lookups (l.calls ++ o.calls)).length + o.state.hot.hotkeyMode.toNat ≤
          captures (l.calls ++ o.calls)
        omega
      · exact absurd (hstale.coherent.alive.symm.trans hkilled) Bool.false_ne_true
    · obtain ⟨is, -, -, hleads⟩ := hfed.fed
      have hlook := lookups_leads hleads
      refine ⟨?_, fun _ => ⟨hfed.coherent, ?_⟩, fun hkilled => ?_⟩
      · show (lookups (l.calls ++ o.calls)).length ≤ captures (l.calls ++ o.calls)
        omega
      · show (lookups (l.calls ++ o.calls)).length + o.state.hot.hotkeyMode.toNat ≤
          captures (l.calls ++ o.calls)
        omega
      · exact absurd (hfed.coherent.alive.symm.trans hkilled) Bool.false_ne_true

end Legacy
end Launchpad
