/-
# The matcher refines the legacy hotkey machine

Read the same key presses, key releases and timer expiries, the legacy machine
and `SequenceMatcher` start a capture at the same inputs and hand the same
non-empty sequences to the lookup at the same inputs (`legacy_refined`).

The two keep the same facts in different ways: the legacy counter is not
clamped and its release handler does not look at the mode, its buffer is an
array with a length that a finished capture resets, and an empty capture is not
looked up at all. `Sim` says how the states correspond. Two conditions keep
them together, each at the step that would break it: a release finds a key
counted (`Balanced`), so the clamp is never used, and a key typed in a capture
finds room in the array (`CapturesWithin`).
-/
import Launchpad.Capture
import Launchpad.Legacy.Hotkeys

namespace Launchpad
namespace Legacy

open KeyCodes MatcherInput

/-- What is seen of a step: a capture starts, or a sequence is looked up. -/
inductive Observation
  | start
  | lookup (seq : KeySequence)
  deriving DecidableEq

/-- What is seen of the calls of a legacy step. -/
def observeCalls (calls : List Call) : List Observation :=
  calls.filterMap fun
    | .captureInput => some .start
    | .findSequenceAction seq => some (.lookup seq)
    | _ => none

/-- What is seen of an answer of the matcher; an empty sequence is not counted. -/
def observeResult (r : MatcherResult) : List Observation :=
  match r.type with
  | .startCapture => [.start]
  | .sequenceComplete => if r.sequence = [] then [] else [.lookup r.sequence]
  | _ => []

/-- The input of the legacy machine: a key event, or an alarm whose timer has
run out. An evdev code is the same number in both programs. -/
def ofInput : MatcherInput → Input
  | .key code .pressed => .event ⟨evKey, code.toInt, 1⟩
  | .key code .released => .event ⟨evKey, code.toInt, 0⟩
  | .timeout => .alarm false

/-- The globals with the keys and the actions of a configuration. -/
def configOf (introducer trailer : RawKeyCode) (hotInterval : ℤ) (actions : List Action) : Config where
  introducer := introducer.toInt
  trailer := trailer.toInt
  hotInterval := hotInterval
  actions := actions

/-- One step of the legacy machine, as it is seen. -/
def observe (cfg : Config) (s : Hotkeys) (i : MatcherInput) : Option (Hotkeys × List Observation) :=
  (s.feed cfg (ofInput i)).map fun r => (r.1, observeCalls r.2)

/-- One step of the matcher, as it is seen. -/
def observeMatcher (m : SequenceMatcher) (i : MatcherInput) : SequenceMatcher × List Observation :=
  ((m.feed i).1, observeResult (m.feed i).2)

/-- No prefix has more releases than presses. -/
def Balanced (is : List MatcherInput) : Prop :=
  ∀ pre, pre <+: is → countType .released (keyEvents pre) ≤ countType .pressed (keyEvents pre)

instance (is : List MatcherInput) : Decidable (Balanced is) :=
  inferInstanceAs (Decidable (∀ pre, pre <+: is → _))

/-- No capture of the stream has more than `n` keys pressed in it; the trailer
that ends a capture is not one of them. -/
def CapturesWithin (n : ℕ) (m : SequenceMatcher) (is : List MatcherInput) : Prop :=
  ∀ pre, pre <+: is → (m.after pre).state = .capturing →
    ∀ ps, sinceStart (Runs.trace SequenceMatcher.feed m pre) = some ps → ps.length ≤ n

/-! ### The states in step -/

/-- The legacy globals that stand for a matcher's context. -/
structure Sim (ctx : MatcherContext) (s : Hotkeys) : Prop where
  npressed : s.npressed = ctx.keysDown
  mode : s.hotkeyMode = true ↔ ctx.state = .capturing
  armed : s.introducerJustPressed = ctx.introducerArmed
  armed_idle : ctx.state = .capturing → ctx.introducerArmed = false
  length : s.hotSequenceLength = ctx.sequence.length
  sequence : s.hotSequence.toList.take s.hotSequenceLength = ctx.sequence
  idle : ctx.state = .idle → ctx.sequence = []

theorem take_set_succ {α : Type*} {n : ℕ} (v : Vector α n) (k : ℕ) (h : k < n) (x : α) :
    (v.set k x h).toList.take (k + 1) = v.toList.take k ++ [x] := by
  have hlen : k < (v.toList.set k x).length := by simpa using h
  rw [Vector.toList_set, List.take_add_one, List.take_set_of_le le_rfl]
  congr 1
  rw [List.getElem?_eq_getElem hlen]
  simp

variable {cfg : Config} {ctx ctx' : MatcherContext} {s : Hotkeys} {r : MatcherResult}
  {i : MatcherInput}

/-- The end of a capture: a non-empty buffer is looked up, an empty one is not. -/
theorem endCapture_sim (cfg : Config) {n : ℕ} {armed : Bool} {seq : KeySequence}
    (h : Sim ⟨.capturing, n, armed, seq⟩ s) (k : ℤ) :
    observeCalls (({ s with npressed := k } : Hotkeys).endCapture cfg).2 =
        observeResult { type := .sequenceComplete, sequence := seq } ∧
      ∀ n' : ℕ, k = n' →
        Sim ⟨.idle, n', armed, []⟩ (({ s with npressed := k } : Hotkeys).endCapture cfg).1 := by
  have hlen : s.hotSequenceLength = seq.length := h.length
  have hseq : s.hotSequence.toList.take s.hotSequenceLength = seq := h.sequence
  have harm : armed = false := h.armed_idle rfl
  have hjust : s.introducerJustPressed = armed := h.armed
  by_cases h0 : s.hotSequenceLength > 0
  · have hne : seq ≠ [] := by
      rintro rfl
      simp at hlen
      omega
    simp only [Hotkeys.endCapture, h0, ↓reduceIte, hseq]
    rcases findSequenceAction cfg.actions seq with _ | a
    · refine ⟨by simp [observeCalls, observeResult, hne], fun n' hk => ?_⟩
      exact ⟨hk, by simp, hjust, nofun, rfl, rfl, fun _ => rfl⟩
    · refine ⟨by simp [observeCalls, observeResult, hne], fun n' hk => ?_⟩
      exact ⟨hk, by simp, hjust, nofun, rfl, rfl, fun _ => rfl⟩
  · have hnil : seq = [] := List.length_eq_zero_iff.mp (by omega)
    subst hnil
    simp only [Hotkeys.endCapture, h0, ↓reduceIte]
    refine ⟨by simp [observeCalls, observeResult], fun n' hk => ?_⟩
    exact ⟨hk, by simp, hjust, nofun, hlen, hseq, fun _ => rfl⟩

/-- What keeps the machines in step: a release finds a key counted, and a key
of a capture finds room in the array. -/
def InStep (m : SequenceMatcher) : MatcherInput → Prop
  | .key _ .released => 0 < m.context.keysDown
  | .key code .pressed => m.context.state = .capturing → code ≠ m.config.trailer →
      m.context.sequence.length < maxSeq
  | .timeout => True

variable {introducer trailer : RawKeyCode} {table : KeyTable} {hotInterval : ℤ}
  {actions : List Action}

theorem Sim.mode_idle {n : ℕ} {armed : Bool} {seq : KeySequence}
    (h : Sim ⟨.idle, n, armed, seq⟩ s) : s.hotkeyMode = false := by
  by_contra hm
  exact nomatch h.mode.mp (by simpa using hm)

theorem Sim.mode_capturing {n : ℕ} {armed : Bool} {seq : KeySequence}
    (h : Sim ⟨.capturing, n, armed, seq⟩ s) : s.hotkeyMode = true := h.mode.mpr rfl

theorem observe_press (code : RawKeyCode) :
    observe cfg s (press code) =
      (s.keyPressed cfg code.toInt).map fun r => (r.1, observeCalls r.2) := rfl

theorem observe_release (code : RawKeyCode) :
    observe cfg s (release code) =
      some ((s.keyReleased cfg code.toInt).1, observeCalls (s.keyReleased cfg code.toInt).2) := rfl

theorem observe_timeout :
    observe cfg s .timeout =
      some ((s.alarmHandler cfg false).1, observeCalls (s.alarmHandler cfg false).2) := rfl

/-- A release that starts no capture counts down, on both sides. -/
theorem Sim.released (h : Sim ctx s) (hpos : 0 < ctx.keysDown) :
    Sim { ctx with keysDown := ctx.keysDown - 1 } { s with npressed := s.npressed - 1 } := by
  refine ⟨?_, h.mode, h.armed, h.armed_idle, h.length, h.sequence, h.idle⟩
  show s.npressed - 1 = ((ctx.keysDown - 1 : ℕ) : ℤ)
  rw [h.npressed]
  omega

/-- One step: one case for each constructor of `MatcherStep`. -/
theorem Sim.step (h : Sim ctx s)
    (hs : MatcherStep ⟨introducer, trailer, some table⟩ ctx i ctx' r)
    (hin : InStep ⟨⟨introducer, trailer, some table⟩, ctx⟩ i) :
    ∃ s', observe (configOf introducer trailer hotInterval actions) s i =
        some (s', observeResult r) ∧ Sim ctx' s' := by
  have hn : s.npressed = ctx.keysDown := h.npressed
  cases hs with
  | @idlePress n armed seq code =>
    have hmode := h.mode_idle
    have hiff : s.npressed + 1 = 1 ∧ code.toInt = introducer.toInt ↔ n = 0 ∧ code = introducer := by
      rw [hn, Int16.toInt_inj]
      exact and_congr_left' (by simp only; omega)
    by_cases hi : n = 0 ∧ code = introducer
    · refine ⟨{ s with npressed := s.npressed + 1, introducerJustPressed := true }, ?_, ?_⟩
      · simp only [observe_press, Hotkeys.keyPressed, configOf, hmode, ↓reduceIte, if_pos (hiff.mpr hi),
          Option.map_some]
        rfl
      · exact ⟨by simp [hn], by simp [hmode], by simp [hi], nofun, h.length, h.sequence, h.idle⟩
    · refine ⟨{ s with
        npressed := s.npressed + 1, introducerJustPressed := false, hotkeyMode := false }, ?_, ?_⟩
      · simp only [observe_press, Hotkeys.keyPressed, configOf, hmode, ↓reduceIte, if_neg (mt hiff.mp hi),
          Option.map_some]
        rfl
      · exact ⟨by simp [hn], by simp, by simp [hi], nofun, h.length, h.sequence, h.idle⟩
  | @start n seq hn0 =>
    have hpos : 0 < n := hin
    have hzero : s.npressed - 1 = 0 := by rw [hn]; simp; omega
    refine ⟨{ s with npressed := s.npressed - 1, introducerJustPressed := false, hotkeyMode := true },
      ?_, ?_⟩
    · have harm : s.introducerJustPressed = true := h.armed
      simp [observe_release, Hotkeys.keyReleased, configOf, hzero, harm, observeCalls, observeResult]
    · have hseq : seq = [] := h.idle rfl
      subst hseq
      exact ⟨by simpa using hzero, by simp, rfl, fun _ => rfl, h.length, h.sequence, nofun⟩
  | @idleRelease n armed seq code hnot =>
    have hpos : 0 < n := hin
    have hiff : ¬ (s.npressed - 1 = 0 ∧ code.toInt = introducer.toInt ∧
        s.introducerJustPressed = true) := by
      rw [hn, Int16.toInt_inj, show s.introducerJustPressed = armed from h.armed]
      rintro ⟨h0, hc, ha⟩
      exact hnot ⟨by simp at h0; omega, hc, ha⟩
    refine ⟨{ s with npressed := s.npressed - 1 }, ?_, h.released hpos⟩
    simp only [observe_release, Hotkeys.keyReleased, configOf, if_neg hiff]
    rfl
  | @trailer n armed seq =>
    obtain ⟨hcalls, hsim⟩ :=
      endCapture_sim (configOf introducer trailer hotInterval actions) h (s.npressed + 1)
    refine ⟨_, ?_, hsim (n + 1) (by simp [hn])⟩
    rw [← hcalls, observe_press]
    simp [Hotkeys.keyPressed, h.mode_capturing, configOf, observeCalls]
  | @append n armed seq code hne =>
    have hroom : seq.length < maxSeq := hin rfl hne
    have hlen : s.hotSequenceLength = seq.length := h.length
    have hlt : s.hotSequenceLength < maxSeq := by omega
    have hne' : code.toInt ≠ trailer.toInt := by rwa [Ne, Int16.toInt_inj]
    refine ⟨{ s with
      npressed := s.npressed + 1
      hotSequence := s.hotSequence.set s.hotSequenceLength
        (Int16.ofInt (getKeySubstituteCode code.toInt)) hlt
      hotSequenceLength := s.hotSequenceLength + 1 }, ?_, ?_⟩
    · simp [observe_press, Hotkeys.keyPressed, h.mode_capturing, configOf, hne', hlt, observeCalls,
        observeResult]
    · refine ⟨by simp [hn], by simp [h.mode_capturing], h.armed, h.armed_idle, by simp [hlen], ?_,
        nofun⟩
      rw [take_set_succ, getKeySubstituteCode_eq table]
      congr 1
      exact h.sequence
  | @capturingRelease n armed seq code =>
    have hpos : 0 < n := hin
    have harm : s.introducerJustPressed = false := h.armed.trans (h.armed_idle rfl)
    refine ⟨{ s with npressed := s.npressed - 1 }, ?_, h.released hpos⟩
    simp [observe_release, Hotkeys.keyReleased, harm, observeCalls, observeResult]
  | idleTimeout =>
    refine ⟨s, ?_, h⟩
    simp [observe_timeout, Hotkeys.alarmHandler, h.mode_idle, observeCalls, observeResult]
  | @timeout n armed seq =>
    obtain ⟨hcalls, hsim⟩ :=
      endCapture_sim (configOf introducer trailer hotInterval actions) h s.npressed
    refine ⟨(s.endCapture _).1, ?_, hsim n hn⟩
    have halarm : s.alarmHandler (configOf introducer trailer hotInterval actions) false =
        ((s.endCapture (configOf introducer trailer hotInterval actions)).1,
          [.engageHotkeyTimer 0, .releaseInput] ++
            (s.endCapture (configOf introducer trailer hotInterval actions)).2) := by
      unfold Hotkeys.alarmHandler
      rw [if_neg nofun, if_pos h.mode_capturing]
    rw [observe_timeout, halarm, ← hcalls]
    rfl

/-! ### Whole streams -/

theorem inStep_of_balanced {pre : List MatcherInput} {code : RawKeyCode}
    (h : countType .released (keyEvents (pre ++ [release code])) ≤
      countType .pressed (keyEvents (pre ++ [release code]))) :
    0 < ((SequenceMatcher.fresh introducer trailer table).after pre).context.keysDown := by
  by_contra h0
  have hev : keyEvents (pre ++ [release code]) = keyEvents pre ++ [(code, .released)] := by
    simp [keyEvents]
  have hle := (SequenceMatcher.keysDown_le_iff introducer trailer table pre 0).mp (by omega)
    (keyEvents pre) List.suffix_rfl
  rw [hev] at h
  simp [countType] at h hle
  omega

theorem inStep_of_capturesWithin {pre : List MatcherInput} {code : RawKeyCode}
    (h : ((SequenceMatcher.fresh introducer trailer table).after (pre ++ [press code])).state =
        .capturing →
      ∀ ps, sinceStart (Runs.trace SequenceMatcher.feed
        (SequenceMatcher.fresh introducer trailer table) (pre ++ [press code])) = some ps →
        ps.length ≤ maxSeq)
    (hcap : ((SequenceMatcher.fresh introducer trailer table).after pre).context.state = .capturing)
    (hne : code ≠ trailer) :
    ((SequenceMatcher.fresh introducer trailer table).after pre).context.sequence.length <
      maxSeq := by
  have hinv := SequenceMatcher.captureInv_after introducer trailer table (pre ++ [press code])
  have hstep := SequenceMatcher.feed_step
    ((SequenceMatcher.fresh introducer trailer table).after pre) (press code)
  rw [SequenceMatcher.after_config] at hstep
  have hafter : (SequenceMatcher.fresh introducer trailer table).after (pre ++ [press code]) =
      (((SequenceMatcher.fresh introducer trailer table).after pre).feed (press code)).1 :=
    Runs.run_append _ _ _ _
  rw [hafter] at h hinv
  obtain ⟨hstate, hseq⟩ := hstep.press_capturing hcap hne
  obtain ⟨ps, hps, hmap⟩ := hinv.capturing hstate
  have hle : ps.length ≤ maxSeq := h hstate ps hps
  have hlen := congrArg List.length (hseq.symm.trans hmap)
  rw [List.length_append, List.length_map, List.length_singleton] at hlen
  omega

theorem sim_fresh : Sim (SequenceMatcher.fresh introducer trailer table).context {} :=
  ⟨rfl, ⟨nofun, nofun⟩, rfl, fun _ => rfl, rfl, rfl, fun _ => rfl⟩

theorem each_inStep {is : List MatcherInput} (hbal : Balanced is)
    (hcap : CapturesWithin maxSeq (SequenceMatcher.fresh introducer trailer table) is) :
    Runs.Each (Runs.next observeMatcher) InStep
      (SequenceMatcher.fresh introducer trailer table) is := by
  refine Runs.each_of_forall (Runs.next observeMatcher) is _ fun pre i post his => ?_
  have hpre : pre ++ [i] <+: is := ⟨post, by rw [his, List.append_assoc]; rfl⟩
  cases i with
  | timeout => trivial
  | key code type =>
    cases type with
    | released => exact inStep_of_balanced (hbal _ hpre)
    | pressed =>
      intro hstate hne
      have hrun := SequenceMatcher.after_config (SequenceMatcher.fresh introducer trailer table) pre
      change code ≠ ((SequenceMatcher.fresh introducer trailer table).after pre).config.trailer at hne
      rw [hrun] at hne
      exact inStep_of_capturesWithin (hcap _ hpre) hstate hne

/-- **The matcher refines the legacy machine.** On every balanced stream whose
captures fit the legacy array, the legacy machine is defined at every step and
at each step is seen to do what the matcher is seen to do. -/
theorem legacy_refined (introducer trailer : RawKeyCode) (table : KeyTable) (hotInterval : ℤ)
    (actions : List Action) (is : List MatcherInput) (hbal : Balanced is)
    (hcap : CapturesWithin maxSeq (SequenceMatcher.fresh introducer trailer table) is) :
    Runs.answers? (observe (configOf introducer trailer hotInterval actions)) {} is =
      some (Runs.answers observeMatcher (SequenceMatcher.fresh introducer trailer table) is) := by
  refine Runs.answers?_eq_of_sim observeMatcher
    (R := fun m s => m.config = ⟨introducer, trailer, some table⟩ ∧ Sim m.context s)
    (C := InStep) ?_ is _ _ ⟨rfl, sim_fresh⟩
    (each_inStep hbal hcap)
  rintro ⟨config, ctx⟩ s i ⟨rfl, hsim⟩ hin
  obtain ⟨s', hs', hsim'⟩ := hsim.step (SequenceMatcher.feed_step ⟨_, ctx⟩ i) hin
  exact ⟨s', hs', SequenceMatcher.feed_config ⟨_, ctx⟩ i, hsim'⟩

/-- Shift and A tapped, Shift tapped again, and the timer runs out. -/
theorem legacy_refined_shift_a :
    Runs.answers? (observe (configOf kpkeyShift kpkeyEnter 700 [])) {}
        [press kpkeyShift, release kpkeyShift, press kpkeyA, release kpkeyA, .timeout] =
      some [[], [.start], [], [], [.lookup [kpkeyA]]] := by
  have hbal : Balanced
      [press kpkeyShift, release kpkeyShift, press kpkeyA, release kpkeyA, .timeout] := by decide
  have hcap : CapturesWithin maxSeq (SequenceMatcher.fresh kpkeyShift kpkeyEnter KeyTable.new)
      [press kpkeyShift, release kpkeyShift, press kpkeyA, release kpkeyA, .timeout] := by
    intro pre hpre _ ps hps
    have hall : ∀ p, p <+: [press kpkeyShift, release kpkeyShift, press kpkeyA, release kpkeyA,
        .timeout] → ((sinceStart (Runs.trace SequenceMatcher.feed
          (SequenceMatcher.fresh kpkeyShift kpkeyEnter KeyTable.new) p)).getD []).length ≤ maxSeq := by
      decide
    have hle := hall pre hpre
    rwa [hps] at hle
  exact (legacy_refined kpkeyShift kpkeyEnter KeyTable.new 700 [] _ hbal hcap).trans (by decide)

end Legacy
end Launchpad
