/-
# What a stream of key events makes of a matcher

Three facts about every stream of key events and timeouts fed to a fresh
`SequenceMatcher`:

* `keys_of_capture`: a completed sequence is the substituted codes of the keys
  pressed since the capture started, all of them, in order, and nothing else;
* `startCapture_iff`: with real keys (a key goes down when it is up and up when
  it is down) a capture starts on the introducer tapped alone and on nothing
  else, and `keys_down` counts the keys held;
* `startCapture_after_loss_iff`: when events are lost, the next tap of the
  introducer is recognised if and only if every press received was followed by
  its release. There is no resynchronisation, so one lost release leaves the
  counter above zero for good.
-/
import Mathlib.Data.Finset.Card
import Launchpad.SequenceMatcher

namespace Launchpad

open KeyCodes MatcherInput

variable {config : MatcherConfig} {ctx ctx' : MatcherContext} {i : MatcherInput} {r : MatcherResult}

/-! ### The keys of a capture

The invariant relates the buffer to the answers given so far: idle, the buffer
is empty; capturing, it is the substituted codes of `sinceStart`. -/

/-- What one input and its answer add to `sinceStart`. -/
def sinceStartStep (acc : Option (List RawKeyCode)) :
    MatcherInput × MatcherResult → Option (List RawKeyCode)
  | (_, { type := .startCapture, .. }) => some []
  | (.key code .pressed, _) => acc.map (· ++ [code])
  | _ => acc

/-- The codes of the keys pressed since the last answer `startCapture` of the
trace, in order; `none` if no capture has started. -/
def sinceStart (tr : List (MatcherInput × MatcherResult)) : Option (List RawKeyCode) :=
  tr.foldl sinceStartStep none

@[simp] theorem sinceStart_concat (tr : List (MatcherInput × MatcherResult))
    (e : MatcherInput × MatcherResult) :
    sinceStart (tr ++ [e]) = sinceStartStep (sinceStart tr) e := by
  simp [sinceStart]

/-- The buffer holds what was typed since the capture started. -/
structure CaptureInv (config : MatcherConfig) (tr : List (MatcherInput × MatcherResult))
    (ctx : MatcherContext) : Prop where
  idle : ctx.state = .idle → ctx.sequence = []
  capturing : ctx.state = .capturing → ∃ ps, sinceStart tr = some ps ∧
    ctx.sequence = ps.map (SequenceMatcher.substituteCode config)

theorem CaptureInv.step {tr : List (MatcherInput × MatcherResult)} (h : CaptureInv config tr ctx)
    (hs : MatcherStep config ctx i ctx' r) : CaptureInv config (tr ++ [(i, r)]) ctx' := by
  cases hs with
  | idlePress code => exact ⟨fun _ => h.idle rfl, nofun⟩
  | start hn => exact ⟨nofun, fun _ => ⟨[], by simp [sinceStartStep], rfl⟩⟩
  | idleRelease code hr => exact ⟨fun _ => h.idle rfl, nofun⟩
  | trailer => exact ⟨fun _ => rfl, nofun⟩
  | append code hc =>
    obtain ⟨ps, hps, hseq⟩ := h.capturing rfl
    simp only at hseq
    refine ⟨nofun, fun _ => ⟨ps ++ [code], ?_, ?_⟩⟩
    · simp [hps, sinceStartStep]
    · simp [hseq]
  | capturingRelease code =>
    obtain ⟨ps, hps, hseq⟩ := h.capturing rfl
    exact ⟨nofun, fun _ => ⟨ps, by simp [hps, sinceStartStep], hseq⟩⟩
  | idleTimeout => exact ⟨fun _ => h.idle rfl, nofun⟩
  | timeout => exact ⟨fun _ => rfl, nofun⟩

namespace SequenceMatcher

theorem captureInv_after (introducer trailer : RawKeyCode) (table : KeyTable)
    (is : List MatcherInput) :
    CaptureInv (fresh introducer trailer table).config
      (Runs.trace feed (fresh introducer trailer table) is)
      ((fresh introducer trailer table).after is).context := by
  refine Runs.run_hist (Runs.next feed)
    (H := fun is m => CaptureInv (fresh introducer trailer table).config
      (Runs.trace feed (fresh introducer trailer table) is) m.context)
    ⟨fun _ => rfl, fun hc => nomatch (show MatcherState.idle = .capturing from hc)⟩ (fun pre i h => ?_) is
  have hstep := feed_step ((fresh introducer trailer table).after pre) i
  rw [after_config] at hstep
  rw [Runs.trace_concat]
  exact h.step hstep

/-- **No key is lost, duplicated or reordered.** Whatever was fed before, a
completed sequence is the substituted codes of all keys pressed since the
capture started, without the trailer that completed it; an appended one is the
same with the key just pressed; and an idle matcher has an empty buffer. -/
theorem keys_of_capture (introducer trailer : RawKeyCode) (table : KeyTable)
    (is : List MatcherInput) :
    let m := (fresh introducer trailer table).after is
    (m.state = .idle → m.currentSequence = []) ∧
    ∀ i, ((m.feed i).2.type = .sequenceComplete →
        ∃ ps, sinceStart (Runs.trace feed (fresh introducer trailer table) is) = some ps ∧
          (m.feed i).2.sequence = ps.map table.getSubstituteCode) ∧
      ((m.feed i).2.type = .keyAppended →
        ∃ ps, sinceStart (Runs.trace feed (fresh introducer trailer table) (is ++ [i])) = some ps ∧
          (m.feed i).2.sequence = ps.map table.getSubstituteCode) := by
  intro m
  have hinv := captureInv_after introducer trailer table is
  refine ⟨hinv.idle, fun i => ?_⟩
  have hstep := feed_step m i
  rw [after_config] at hstep
  have hnext := hinv.step hstep
  rw [Runs.trace_concat]
  generalize (m.feed i).2 = r at *
  generalize (m.feed i).1.context = ctx' at *
  change MatcherStep _ m.context i ctx' r at hstep
  change CaptureInv _ _ m.context at hinv
  generalize m.context = ctx at *
  refine ⟨fun hr => ?_, fun hr => ?_⟩
  · cases hstep with
    | trailer => exact hinv.capturing rfl
    | timeout => exact hinv.capturing rfl
    | _ => cases hr
  · cases hstep with
    | append code hc => exact hnext.capturing rfl
    | _ => cases hr

end SequenceMatcher

/-! ### The isolated tap

`held` is what the fingers do, without the matcher: the keys that are down.
The invariant says that `keys_down` counts them and that the matcher is armed
exactly between the press of the introducer alone and the next key event. -/

/-- The keys that are down after one more input. -/
def heldStep (down : Finset RawKeyCode) : MatcherInput → Finset RawKeyCode
  | .key code .pressed => insert code down
  | .key code .released => down.erase code
  | .timeout => down

/-- The keys that are down after a stream that starts with all keys up. -/
def held (is : List MatcherInput) : Finset RawKeyCode := Runs.run heldStep ∅ is

/-- A key goes down when it is up and up when it is down. -/
def KeyOk (down : Finset RawKeyCode) : MatcherInput → Prop
  | .key code .pressed => code ∉ down
  | .key code .released => code ∈ down
  | .timeout => True

/-- Per key, presses and releases alternate, from all keys up. -/
def WellFormed (is : List MatcherInput) : Prop := Runs.Each heldStep KeyOk ∅ is

@[simp] theorem held_concat (is : List MatcherInput) (i : MatcherInput) :
    held (is ++ [i]) = heldStep (held is) i := by simp [held]

theorem wellFormed_append {is js : List MatcherInput} :
    WellFormed (is ++ js) ↔ WellFormed is ∧ Runs.Each heldStep KeyOk (held is) js :=
  Runs.each_append _ _ _ _

theorem wellFormed_concat {is : List MatcherInput} {i : MatcherInput} :
    WellFormed (is ++ [i]) ↔ WellFormed is ∧ KeyOk (held is) i := by
  rw [wellFormed_append]; simp [Runs.Each]

/-- The last key event of the stream is the press of the introducer, with no
key held and the matcher idle before it. -/
def Tapped (m : SequenceMatcher) (is : List MatcherInput) : Prop :=
  ∃ pre ts, is = pre ++ press m.config.introducer :: ts ∧ (∀ t ∈ ts, t = .timeout) ∧
    held pre = ∅ ∧ (m.after pre).state = .idle

variable {m : SequenceMatcher}

/-- The press of a tap is the last input, or timeouts follow it. -/
theorem tapped_concat {is : List MatcherInput} :
    Tapped m (is ++ [i]) ↔ (i = press m.config.introducer ∧ held is = ∅ ∧ (m.after is).state = .idle) ∨
      (i = .timeout ∧ Tapped m is) := by
  constructor
  · rintro ⟨pre, ts, he, hts, hh, hst⟩
    rcases List.eq_nil_or_concat ts with rfl | ⟨ts', t, rfl⟩
    · obtain ⟨rfl, hi⟩ := List.append_inj' he rfl
      exact Or.inl ⟨by simpa using hi, hh, hst⟩
    · rw [List.concat_eq_append, ← List.cons_append, ← List.append_assoc] at he
      obtain ⟨rfl, hi⟩ := List.append_inj' he rfl
      have ht : t = .timeout := hts t (by simp)
      refine Or.inr ⟨?_, pre, ts', rfl, fun u hu => hts u (by simp [hu]), hh, hst⟩
      rw [← ht]; simpa using hi
  · rintro (⟨rfl, hh, hst⟩ | ⟨rfl, pre, ts, rfl, hts, hh, hst⟩)
    · exact ⟨is, [], rfl, by simp, hh, hst⟩
    · refine ⟨pre, ts ++ [.timeout], by simp, fun t ht => ?_, hh, hst⟩
      rcases List.mem_append.mp ht with ht | ht
      · exact hts t ht
      · simpa using ht

theorem held_timeouts : ∀ (ts : List MatcherInput) (down : Finset RawKeyCode),
    (∀ t ∈ ts, t = .timeout) → Runs.run heldStep down ts = down
  | [], _, _ => rfl
  | t :: ts, down, h => by
    obtain rfl : t = .timeout := h t (by simp)
    exact held_timeouts ts down fun u hu => h u (by simp [hu])

theorem held_of_tapped {is : List MatcherInput} (h : Tapped m is) :
    held is = {m.config.introducer} := by
  obtain ⟨pre, ts, rfl, hts, hh, -⟩ := h
  rw [held, Runs.run_append, Runs.run_cons, held_timeouts _ _ hts]
  rw [held] at hh
  simp [hh, heldStep]

/-- The counter counts the keys held, and the matcher is armed by a tap only. -/
structure TapInv (m : SequenceMatcher) (is : List MatcherInput) (ctx : MatcherContext) : Prop where
  keysDown : ctx.keysDown = (held is).card
  armed : ctx.introducerArmed = true ↔ Tapped m is
  armed_idle : ctx.introducerArmed = true → ctx.state = .idle

theorem TapInv.step {is : List MatcherInput} (h : TapInv m is ctx)
    (hst : (m.after is).state = ctx.state) (hok : KeyOk (held is) i)
    (hs : MatcherStep m.config ctx i ctx' r) : TapInv m (is ++ [i]) ctx' := by
  have hpress : ∀ {code}, code ∉ held is → (insert code (held is)).card = (held is).card + 1 :=
    fun hc => Finset.card_insert_of_notMem hc
  have hrelease : ∀ {code}, code ∈ held is → ((held is).erase code).card = (held is).card - 1 :=
    fun hc => Finset.card_erase_of_mem hc
  cases hs with
  | @idlePress n armed seq code =>
    have hn : n = (held is).card := h.keysDown
    refine ⟨by rw [held_concat, heldStep, hpress hok, hn], ?_, fun _ => rfl⟩
    simp [tapped_concat, hst, hn, and_comm]
  | @start n seq hn =>
    refine ⟨?_, by simp [tapped_concat], nofun⟩
    rw [held_concat, heldStep, hrelease hok, ← h.keysDown]
    exact hn.symm
  | @idleRelease n armed seq code hr =>
    -- armed, only the introducer is held, so its release would start a capture
    have hna : ¬ armed = true := fun ha => by
      have hone := held_of_tapped (h.armed.mp ha)
      refine hr ⟨?_, ?_, ha⟩
      · have hn : n = (held is).card := h.keysDown
        rw [hn, hone]; rfl
      · have hmem : code ∈ held is := hok
        rwa [hone, Finset.mem_singleton] at hmem
    refine ⟨by rw [held_concat, heldStep, hrelease hok, ← h.keysDown], ?_, fun _ => rfl⟩
    simpa [tapped_concat] using hna
  | @trailer n armed seq =>
    have hna : ¬ armed = true := fun ha => nomatch h.armed_idle ha
    refine ⟨by rw [held_concat, heldStep, hpress hok, ← h.keysDown], ?_, fun ha => absurd ha hna⟩
    simp [tapped_concat, hst, hna]
  | @append n armed seq code hc =>
    have hna : ¬ armed = true := fun ha => nomatch h.armed_idle ha
    refine ⟨by rw [held_concat, heldStep, hpress hok, ← h.keysDown], ?_, fun ha => absurd ha hna⟩
    simp [tapped_concat, hst, hna]
  | @capturingRelease n armed seq code =>
    have hna : ¬ armed = true := fun ha => nomatch h.armed_idle ha
    refine ⟨by rw [held_concat, heldStep, hrelease hok, ← h.keysDown], ?_, fun ha => absurd ha hna⟩
    simp [tapped_concat, hna]
  | @idleTimeout n armed seq =>
    exact ⟨by rw [held_concat]; exact h.keysDown, by simpa [tapped_concat] using h.armed, fun _ => rfl⟩
  | @timeout n armed seq =>
    have hna : ¬ armed = true := fun ha => nomatch h.armed_idle ha
    refine ⟨by rw [held_concat]; exact h.keysDown, ?_, fun ha => absurd ha hna⟩
    simpa [tapped_concat] using h.armed

namespace SequenceMatcher

theorem tapInv_after (introducer trailer : RawKeyCode) (table : KeyTable) (is : List MatcherInput)
    (hwf : WellFormed is) :
    TapInv (fresh introducer trailer table) is
      ((fresh introducer trailer table).after is).context := by
  refine Runs.run_hist_of (Runs.next feed) (G := WellFormed)
    (H := fun is m => TapInv (fresh introducer trailer table) is m.context)
    (fun pre i h => (wellFormed_concat.mp h).1) ⟨rfl, ?_, fun _ => rfl⟩ (fun pre i hG h => ?_) is hwf
  · simp [Tapped, fresh, new]
  · have hstep := feed_step ((fresh introducer trailer table).after pre) i
    rw [after_config] at hstep
    exact h.step rfl (wellFormed_concat.mp hG).2 hstep

/-- **A capture starts on the introducer tapped alone, and on nothing else.**
In a well-formed stream, an input is answered `startCapture` if and only if it
is the release of the introducer, the key event before it is the introducer's
press, no key was held just before that press and the matcher was idle then;
and at every point `keys_down` is the number of keys held. -/
theorem startCapture_iff (introducer trailer : RawKeyCode) (table : KeyTable)
    (is : List MatcherInput) (hwf : WellFormed is) :
    let m := fresh introducer trailer table
    ∀ pre post, is = pre ++ post →
      (m.after pre).context.keysDown = (held pre).card ∧
      ∀ i post', post = i :: post' →
        (((m.after pre).feed i).2.type = .startCapture ↔
          i = release introducer ∧ ∃ pre' ts, pre = pre' ++ press introducer :: ts ∧
            (∀ t ∈ ts, t = .timeout) ∧ held pre' = ∅ ∧ (m.after pre').state = .idle) := by
  rintro m pre post rfl
  have hinv := tapInv_after introducer trailer table pre (wellFormed_append.mp hwf).1
  refine ⟨hinv.keysDown, ?_⟩
  rintro i post' rfl
  have hstep := feed_step (m.after pre) i
  rw [after_config] at hstep
  change TapInv m pre (m.after pre).context at hinv
  show _ ↔ _ ∧ Tapped m pre
  generalize ((m.after pre).feed i).2 = r at *
  generalize ((m.after pre).feed i).1.context = ctx' at *
  generalize (m.after pre).context = ctx at *
  constructor
  · intro hr
    cases hstep with
    | start hn => exact ⟨rfl, hinv.armed.mp rfl⟩
    | _ => cases hr
  · rintro ⟨hi, htap⟩
    have harmed := hinv.armed.mpr htap
    have hidle := hinv.armed_idle harmed
    have hn := hinv.keysDown
    rw [held_of_tapped htap, Finset.card_singleton] at hn
    cases hstep with
    | start _ => rfl
    | idleRelease code hr =>
      obtain rfl : code = introducer := by simpa using hi
      exact absurd ⟨by simp only at hn; omega, rfl, harmed⟩ hr
    | capturingRelease _ => cases hidle
    | _ => simp at hi

/-- Shift tapped, then `A` tapped: the tap starts a capture. -/
theorem startCapture_iff_shift_a :
    let m := fresh kpkeyShift kpkeyEnter KeyTable.new
    WellFormed [press kpkeyShift, release kpkeyShift, press kpkeyA, release kpkeyA] ∧
      ((m.after [press kpkeyShift]).feed (release kpkeyShift)).2.type = .startCapture := by
  have hwf : WellFormed [press kpkeyShift, release kpkeyShift, press kpkeyA, release kpkeyA] := by
    simp [WellFormed, Runs.Each, KeyOk, heldStep]
  have h := startCapture_iff kpkeyShift kpkeyEnter KeyTable.new _ hwf [press kpkeyShift]
    [release kpkeyShift, press kpkeyA, release kpkeyA] rfl
  exact ⟨hwf, (h.2 _ _ rfl).mpr ⟨rfl, [], [], rfl, by simp, rfl, rfl⟩⟩

end SequenceMatcher

/-! ### Lost events

The kernel drops events when its queue overflows, so the matcher may read any
part of what was typed. Its counter after any stream is the clamped balance of
presses and releases, which is zero only if no suffix of the stream has more
presses than releases (`keysDown_le_iff`), and an idle matcher recognises the
introducer only from zero (`tap_of_idle`). -/

/-- The key events of a stream, without the timeouts. -/
def keyEvents (is : List MatcherInput) : List (RawKeyCode × KeyEventType) :=
  is.filterMap fun
    | .key code type => some (code, type)
    | .timeout => none

/-- A history of real keys that ends with all keys up, and the stream the
matcher got of it: some of the events, with timeouts anywhere. -/
structure LossyHistory where
  history : List (RawKeyCode × KeyEventType)
  wellFormed : WellFormed (history.map fun e => .key e.1 e.2)
  allUp : held (history.map fun e => .key e.1 e.2) = ∅
  received : List MatcherInput
  sublist : (keyEvents received).Sublist history

/-- The events of one type. -/
def countType (type : KeyEventType) (es : List (RawKeyCode × KeyEventType)) : ℕ :=
  es.countP (·.2 = type)

/-- No suffix of the events has more presses than releases: every press is
made up for by a later release. -/
def EveryPressReleased (es : List (RawKeyCode × KeyEventType)) : Prop :=
  ∀ s, s <:+ es → countType .pressed s ≤ countType .released s

/-- `keys_down` after one more input, in either state. -/
def keysDownStep (n : ℕ) : MatcherInput → ℕ
  | .key _ .pressed => n + 1
  | .key _ .released => n - 1
  | .timeout => n

theorem MatcherStep.keysDown (hs : MatcherStep config ctx i ctx' r) :
    ctx'.keysDown = keysDownStep ctx.keysDown i := by
  cases hs with
  | start hn => exact hn.symm
  | _ => rfl

namespace SequenceMatcher

theorem keysDown_feed (m : SequenceMatcher) (i : MatcherInput) :
    (m.feed i).1.context.keysDown = keysDownStep m.context.keysDown i := (feed_step m i).keysDown

/-- The counter of a fresh matcher is the largest excess of presses over
releases in a suffix of what it read. -/
theorem keysDown_le_iff (introducer trailer : RawKeyCode) (table : KeyTable)
    (is : List MatcherInput) :
    ∀ k, ((fresh introducer trailer table).after is).context.keysDown ≤ k ↔
      ∀ s, s <:+ keyEvents is → countType .pressed s ≤ countType .released s + k := by
  refine Runs.run_hist (Runs.next feed) (H := fun is m => ∀ k, m.context.keysDown ≤ k ↔
    ∀ s, s <:+ keyEvents is → countType .pressed s ≤ countType .released s + k) ?_
    (fun pre i h k => ?_) is
  · intro k
    simp [keyEvents, countType, fresh, new]
  · rw [Runs.next, keysDown_feed]
    generalize Runs.run (Runs.next feed) (fresh introducer trailer table) pre = m at h ⊢
    cases i with
    | timeout => simpa [keyEvents, keysDownStep] using h k
    | key code type =>
      have hev : keyEvents (pre ++ [.key code type]) = keyEvents pre ++ [(code, type)] := by
        simp [keyEvents]
      have hsuf : ∀ P : List (RawKeyCode × KeyEventType) → Prop,
          (∀ s, s <:+ keyEvents pre ++ [(code, type)] → P s) ↔
            P [] ∧ ∀ s, s <:+ keyEvents pre → P (s ++ [(code, type)]) := by
        intro P
        simp only [List.suffix_concat_iff]
        constructor
        · exact fun hP => ⟨hP [] (Or.inl rfl), fun s hs => hP _ (Or.inr ⟨s, rfl, hs⟩)⟩
        · rintro ⟨h0, h1⟩ s (rfl | ⟨t, rfl, ht⟩)
          · exact h0
          · exact h1 t ht
      rw [hev, hsuf]
      cases type with
      | pressed =>
        simp only [keysDownStep, countType, List.countP_nil, List.countP_append, Nat.zero_le, true_and]
        rcases k with _ | k
        · refine ⟨fun hn => by omega, fun hs => ?_⟩
          have := hs [] (List.nil_suffix)
          simp at this
        · rw [Nat.add_le_add_iff_right, h k]
          refine forall₂_congr fun s _ => ?_
          simp [countType]
          omega
      | released =>
        simp only [keysDownStep, countType, List.countP_nil, List.countP_append, Nat.zero_le, true_and]
        rw [Nat.sub_le_iff_le_add, h (k + 1)]
        refine forall₂_congr fun s _ => ?_
        simp [countType]
        omega

/-- An idle matcher recognises a tap of its introducer only from a zero counter. -/
theorem tap_of_idle (m : SequenceMatcher) (hidle : m.state = .idle) :
    ((m.feed (press m.config.introducer)).1.feed (release m.config.introducer)).2.type =
      .startCapture ↔ m.context.keysDown = 0 := by
  rcases m with ⟨config, ⟨state, n, armed, seq⟩⟩
  obtain rfl : state = .idle := hidle
  by_cases hn : n = 0
  · subst hn
    simp [feed, processKeyEvent, handleIdlePress, handleIdleRelease]
  · simp [feed, processKeyEvent, handleIdlePress, handleIdleRelease, hn]

/-- **When a lossy history leaves the introducer usable.** If the matcher ends
up idle, the next press and release of the introducer starts a capture if and
only if every press it received was followed by a release it received. -/
theorem startCapture_after_loss_iff (introducer trailer : RawKeyCode) (table : KeyTable)
    (h : LossyHistory) (hidle : ((fresh introducer trailer table).after h.received).state = .idle) :
    (((fresh introducer trailer table).after (h.received ++ [press introducer])).feed
        (release introducer)).2.type = .startCapture ↔
      EveryPressReleased (keyEvents h.received) := by
  have htap := tap_of_idle _ hidle
  rw [after_config] at htap
  rw [after, Runs.run_append]
  apply htap.trans
  rw [← Nat.le_zero, keysDown_le_iff introducer trailer table h.received 0]
  rfl

/-- `A` is pressed and released, and the release is lost. -/
def lostRelease : LossyHistory where
  history := [(kpkeyA, .pressed), (kpkeyA, .released)]
  wellFormed := by simp [WellFormed, Runs.Each, KeyOk, heldStep]
  allUp := by decide
  received := [press kpkeyA]
  sublist := by decide

/-- The same history, received whole. -/
def nothingLost : LossyHistory where
  history := lostRelease.history
  wellFormed := lostRelease.wellFormed
  allUp := lostRelease.allUp
  received := [press kpkeyA, release kpkeyA, .timeout]
  sublist := by decide

theorem startCapture_after_nothingLost :
    (((fresh kpkeyShift kpkeyEnter KeyTable.new).after (nothingLost.received ++ [press kpkeyShift])).feed
      (release kpkeyShift)).2.type = .startCapture := by
  apply (startCapture_after_loss_iff kpkeyShift kpkeyEnter KeyTable.new nothingLost rfl).mpr
  intro s hs
  have hall : ∀ s ∈ (keyEvents nothingLost.received).tails,
      countType .pressed s ≤ countType .released s := by decide
  exact hall s ((List.mem_tails _ _).mpr hs)

/-- One lost release, and Shift no longer starts a capture. -/
theorem no_startCapture_after_lostRelease :
    ¬ ∀ (introducer trailer : RawKeyCode) (table : KeyTable) (h : LossyHistory),
      ((fresh introducer trailer table).after h.received).state = .idle →
      (((fresh introducer trailer table).after (h.received ++ [press introducer])).feed
        (release introducer)).2.type = .startCapture := by
  intro hall
  have h := hall kpkeyShift kpkeyEnter KeyTable.new lostRelease rfl
  revert h
  decide

end SequenceMatcher
end Launchpad
