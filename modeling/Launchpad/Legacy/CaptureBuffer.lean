/-
# The capture buffer of the legacy daemon

`hot_sequence` holds `MAXSEQ` codes. `process_input_event` stores the code of
every key typed in a capture and never looks at the length; the trailer, a
genuine alarm and the idle branch of the `select` loop set the length back to
zero. Nothing else bounds it.

Which inputs belong to a capture does not depend on the buffer. `Phase` follows
the inputs alone: how many keys are held, whether a capture is under way, and
how many keys were typed since it began or since the last idle tick. The length
of the buffer is that number (`Phase.Tracks`), so the accesses of a run stay
inside the array exactly when the number never passes `MAXSEQ`
(`inBounds_iff_typed`), and that is a condition on the stretches of the stream
(`inBounds_iff`).
-/
import Mathlib.Tactic.SplitIfs
import Launchpad.Runs
import Launchpad.Legacy.Hotkeys

namespace Launchpad
namespace Legacy

/-- A key goes down. -/
def keyDown (code : ℤ) : Input := .event ⟨evKey, code, 1⟩

/-- A key goes up. -/
def keyUp (code : ℤ) : Input := .event ⟨evKey, code, 0⟩

variable (cfg : Config)

/-- The press of a key other than the trailer. -/
def Input.typed : Input → Bool
  | .event ev => ev.type = evKey ∧ ev.value = 1 ∧ ev.code ≠ cfg.trailer
  | _ => false

/-- What sets the length of the buffer back: an idle tick, a genuine alarm, the
press of the trailer. -/
def Input.ends : Input → Bool
  | .event ev => ev.type = evKey ∧ ev.value = 1 ∧ ev.code = cfg.trailer
  | .alarm timerRunning => !timerRunning
  | .idle => true

/-! ### The accesses to the buffer -/

namespace Hotkeys

/-- The step stores a code at `hot_sequence[hot_sequence_length]`. -/
def Writes (s : Hotkeys) (i : Input) : Prop := s.hotkeyMode = true ∧ i.typed cfg = true

/-- The step hands the first `hot_sequence_length` codes to the lookup. -/
def LooksUp (s : Hotkeys) (i : Input) : Prop :=
  ∃ r, s.feed cfg i = some r ∧ ∃ seq, Call.findSequenceAction seq ∈ r.2

/-- The index written is inside the array, and so are the codes looked up. -/
def Bounded (s : Hotkeys) (i : Input) : Prop :=
  (s.Writes cfg i → s.hotSequenceLength < maxSeq) ∧
    (s.LooksUp cfg i → s.hotSequenceLength ≤ maxSeq)

end Hotkeys

/-- Every step of the run is reached, and its accesses are inside the array. -/
def InBounds (is : List Input) : Prop :=
  ∀ pre i, pre ++ [i] <+: is →
    ∃ s, Runs.run? (Hotkeys.feed cfg) {} pre = some s ∧ s.Bounded cfg i

/-! ### What the inputs alone decide -/

/-- A capture under way counts the keys typed since it began or since the last
idle tick. -/
inductive Mode
  | idle
  | armed
  | capturing (typed : ℕ)
  deriving DecidableEq

structure Phase where
  held : ℤ := 0
  mode : Mode := .idle
  deriving DecidableEq

namespace Phase

def Capturing (p : Phase) : Prop := ∃ n, p.mode = .capturing n

def typed (p : Phase) : ℕ :=
  match p.mode with
  | .capturing n => n
  | _ => 0

/-- The introducer arms when it is the only key held; the trailer ends a capture. -/
def pressed (p : Phase) (code : ℤ) : Phase where
  held := p.held + 1
  mode :=
    match p.mode with
    | .capturing n => if code = cfg.trailer then .idle else .capturing (n + 1)
    | _ => if p.held + 1 = 1 ∧ code = cfg.introducer then .armed else .idle

/-- An armed introducer that goes up last begins a capture. -/
def released (p : Phase) (code : ℤ) : Phase where
  held := p.held - 1
  mode :=
    if p.mode = .armed ∧ p.held - 1 = 0 ∧ code = cfg.introducer then .capturing 0 else p.mode

def next (p : Phase) : Input → Phase
  | .event ev =>
    if ev.type = evKey then
      if ev.value = 1 then p.pressed cfg ev.code
      else if ev.value = 0 then p.released cfg ev.code
      else p
    else p
  | .alarm timerRunning =>
    match timerRunning, p.mode with
    | false, .capturing _ => { p with mode := .idle }
    | _, _ => p
  | .idle =>
    match p.mode with
    | .capturing _ => { held := 0, mode := .capturing 0 }
    | mode => { held := 0, mode := mode }

/-- The phase after the inputs `is` from the start of the daemon. -/
def after (is : List Input) : Phase := Runs.run (next cfg) {} is

theorem after_concat (is : List Input) (i : Input) :
    after cfg (is ++ [i]) = (after cfg is).next cfg i := Runs.run_append _ _ _ _

end Phase

/-- No stretch of the stream inside a capture, free of idle ticks, has more than
`n` keys typed in it. -/
def StretchesWithin (n : ℕ) (is : List Input) : Prop :=
  ∀ pre mid, pre ++ mid <+: is → (Phase.after cfg pre).Capturing →
    (∀ i ∈ mid, i.ends cfg = false) → mid.countP (Input.typed cfg) ≤ n

variable {cfg} {p : Phase} {s : Hotkeys} {i : Input} {is : List Input}

theorem Input.exists_of_typed (hi : i.typed cfg = true) :
    ∃ ev, i = .event ev ∧ ev.type = evKey ∧ ev.value = 1 ∧ ev.code ≠ cfg.trailer := by
  cases i with
  | event ev => exact ⟨ev, rfl, by simpa [Input.typed] using hi⟩
  | alarm timerRunning => cases hi
  | idle => cases hi

/-! ### The count of a stretch -/

namespace Phase

theorem typed_released (p : Phase) (code : ℤ) : (p.released cfg code).typed = p.typed := by
  obtain ⟨held, mode⟩ := p
  simp only [released, typed]
  split_ifs with hi
  · rw [hi.1]
  · rfl

/-- A key typed in a capture is counted. -/
theorem typed_next_of_typed (hm : p.Capturing) (hi : i.typed cfg = true) :
    (p.next cfg i).typed = p.typed + 1 := by
  obtain ⟨held, mode⟩ := p
  obtain ⟨n, rfl⟩ : ∃ n, mode = .capturing n := hm
  obtain ⟨ev, rfl, hk, h1, ht⟩ := Input.exists_of_typed hi
  simp [next, pressed, typed, hk, h1, ht]

/-- Any other input keeps the count or sets it back. -/
theorem typed_next_of_not (hn : ¬ (p.Capturing ∧ i.typed cfg = true)) :
    (p.next cfg i).typed = if i.ends cfg then 0 else p.typed := by
  obtain ⟨held, mode⟩ := p
  cases i with
  | event ev =>
    by_cases hk : ev.type = evKey
    · by_cases h1 : ev.value = 1
      · cases mode with
        | capturing n =>
          have ht : ev.code = cfg.trailer := by
            by_contra ht
            exact hn ⟨⟨n, rfl⟩, by simp [Input.typed, hk, h1, ht]⟩
          simp [next, pressed, typed, Input.ends, hk, h1, ht]
        | _ =>
          simp only [next, pressed, typed, hk, h1, ↓reduceIte]
          split_ifs <;> rfl
      · have hends : (Input.event ev).ends cfg = false := by simp [Input.ends, h1]
        by_cases h0 : ev.value = 0
        · rw [hends]
          simp only [next, hk, h0, ↓reduceIte]
          exact typed_released _ _
        · simp [next, hends, h1, h0]
    · simp [next, Input.ends, hk]
  | alarm timerRunning => cases timerRunning <;> cases mode <;> rfl
  | idle => cases mode <;> rfl

theorem capturing_next (hm : p.Capturing) (hi : i.ends cfg = false) :
    (p.next cfg i).Capturing := by
  obtain ⟨held, mode⟩ := p
  obtain ⟨n, rfl⟩ : ∃ n, mode = .capturing n := hm
  cases i with
  | event ev =>
    by_cases hk : ev.type = evKey
    · by_cases h1 : ev.value = 1
      · have ht : ev.code ≠ cfg.trailer := fun ht => by simp [Input.ends, hk, h1, ht] at hi
        exact ⟨n + 1, by simp [next, pressed, hk, h1, ht]⟩
      · by_cases h0 : ev.value = 0
        · exact ⟨n, by simp [next, released, hk, h0]⟩
        · exact ⟨n, by simp [next, h1, h0]⟩
    · exact ⟨n, by simp [next, hk]⟩
  | alarm timerRunning =>
    cases timerRunning with
    | true => exact ⟨n, rfl⟩
    | false => cases hi
  | idle => cases hi

theorem capturing_run (hm : p.Capturing) (mid : List Input)
    (hno : ∀ i ∈ mid, i.ends cfg = false) : (Runs.run (next cfg) p mid).Capturing := by
  induction mid generalizing p with
  | nil => exact hm
  | cons i mid ih =>
    have hnext : (p.next cfg i).Capturing := capturing_next hm (hno i List.mem_cons_self)
    exact ih hnext fun j hj => hno j (List.mem_cons_of_mem i hj)

/-- Through a stretch of a capture the count grows by the keys typed in it. -/
theorem typed_run (hm : p.Capturing) (mid : List Input) (hno : ∀ i ∈ mid, i.ends cfg = false) :
    (Runs.run (next cfg) p mid).typed = p.typed + mid.countP (Input.typed cfg) := by
  induction mid generalizing p with
  | nil => rfl
  | cons i mid ih =>
    have hi : i.ends cfg = false := hno i List.mem_cons_self
    rw [Runs.run_cons, ih (capturing_next hm hi) fun j hj => hno j (List.mem_cons_of_mem i hj)]
    by_cases ht : i.typed cfg = true
    · rw [typed_next_of_typed hm ht, List.countP_cons_of_pos ht]
      omega
    · rw [typed_next_of_not fun h => ht h.2, hi, List.countP_cons_of_neg ht]
      rfl

/-- The count is zero, or it is that of a stretch of a capture up to now. -/
theorem exists_stretch (cfg : Config) (is : List Input) :
    (after cfg is).typed = 0 ∨ ∃ pre mid, is = pre ++ mid ∧ (after cfg pre).Capturing ∧
      (∀ i ∈ mid, i.ends cfg = false) ∧ mid.countP (Input.typed cfg) = (after cfg is).typed := by
  induction is using List.reverseRecOn with
  | nil => exact .inl rfl
  | append_singleton is i ih =>
    rw [after_concat]
    by_cases hc : (after cfg is).Capturing ∧ i.typed cfg = true
    · obtain ⟨hm, ht⟩ := hc
      have hi : i.ends cfg = false := by
        cases i with
        | event ev => simp_all [Input.typed, Input.ends]
        | alarm timerRunning => cases ht
        | idle => cases ht
      have hcount : [i].countP (Input.typed cfg) = 1 := by simp [ht]
      rw [typed_next_of_typed hm ht]
      rcases ih with h0 | ⟨pre, mid, rfl, hpre, hno, hmid⟩
      · exact .inr ⟨is, [i], rfl, hm, by simpa using hi, by rw [hcount, h0]⟩
      · refine .inr ⟨pre, mid ++ [i], by simp, hpre, ?_, by rw [List.countP_append, hcount, hmid]⟩
        simpa [or_imp, forall_and] using ⟨hno, hi⟩
    · rw [typed_next_of_not hc]
      cases hi : i.ends cfg with
      | true => exact .inl rfl
      | false =>
        rcases ih with h0 | ⟨pre, mid, rfl, hpre, hno, hmid⟩
        · exact .inl (by simpa using h0)
        · have hcap : (after cfg (pre ++ mid)).Capturing := by
            rw [after, Runs.run_append]
            exact capturing_run hpre mid hno
          have ht : i.typed cfg = false := by
            by_contra ht
            exact hc ⟨hcap, by simpa using ht⟩
          refine .inr ⟨pre, mid ++ [i], by simp, hpre, ?_, ?_⟩
          · simpa [or_imp, forall_and] using ⟨hno, hi⟩
          · rw [List.countP_append, hmid]
            simp [ht]

/-- The counts of a stream within a bound, as a condition on its stretches. -/
theorem typed_le_iff (cfg : Config) (n : ℕ) (is : List Input) :
    (∀ pre, pre <+: is → (after cfg pre).typed ≤ n) ↔ StretchesWithin cfg n is := by
  refine ⟨fun h pre mid hpre hm hno => ?_, fun h pre hpre => ?_⟩
  · have hrun : (after cfg (pre ++ mid)).typed =
        (after cfg pre).typed + mid.countP (Input.typed cfg) := by
      rw [after, Runs.run_append]
      exact typed_run hm mid hno
    have hle := h _ hpre
    omega
  · rcases exists_stretch cfg pre with h0 | ⟨pre, mid, rfl, hm, hno, hmid⟩
    · omega
    · exact hmid ▸ h pre mid hpre hm hno

end Phase

/-! ### The length of the buffer -/

/-- The globals that stand for a phase. -/
structure Phase.Tracks (p : Phase) (s : Hotkeys) : Prop where
  npressed : s.npressed = p.held
  mode : s.hotkeyMode = true ↔ p.Capturing
  armed : s.introducerJustPressed = true ↔ p.mode = .armed
  length : s.hotSequenceLength = p.typed

/-- Both branches of a lookup leave the same globals. -/
theorem Hotkeys.endCapture_fst (s : Hotkeys) :
    (s.endCapture cfg).1 = { s with hotkeyMode := false, hotSequenceLength := 0 } := by
  unfold Hotkeys.endCapture
  by_cases h0 : s.hotSequenceLength > 0
  · simp only [h0, ↓reduceIte]
    split <;> rfl
  · have hlen : s.hotSequenceLength = 0 := by omega
    simp only [h0, ↓reduceIte]
    rw [← hlen]

/-- A step is undefined exactly when it would write past the end of the array. -/
theorem Hotkeys.feed_isSome_iff :
    (s.feed cfg i).isSome ↔ (s.Writes cfg i → s.hotSequenceLength < maxSeq) := by
  cases i with
  | event ev =>
    simp only [Hotkeys.feed, Hotkeys.processInputEvent, Hotkeys.Writes, Input.typed]
    by_cases hk : ev.type = evKey
    · by_cases h1 : ev.value = 1
      · rw [if_pos hk, if_pos h1]
        unfold Hotkeys.keyPressed
        cases hm : s.hotkeyMode with
        | false =>
          simp only [↓reduceIte, Bool.false_eq_true, false_and, false_imp_iff, iff_true]
          split <;> rfl
        | true =>
          simp only [Bool.true_eq_false, ↓reduceIte, hk, h1, true_and, decide_eq_true_eq]
          split
          · simp_all
          · split <;> simp_all
      · simp only [hk, h1, ↓reduceIte]
        split <;> simp
    · simp [hk]
  | alarm timerRunning => simp [Hotkeys.feed, Hotkeys.Writes, Input.typed]
  | idle => simp [Hotkeys.feed, Hotkeys.Writes, Input.typed]

namespace Phase

theorem tracks_start : Tracks {} {} := by
  refine ⟨rfl, ?_, ?_, rfl⟩ <;> simp [Capturing]

/-- The capture over, as both handlers leave it. -/
theorem Tracks.endCapture (h : p.Tracks s) (hm : p.Capturing) (n : ℤ) :
    Tracks { held := n } (({ s with npressed := n } : Hotkeys).endCapture cfg).1 := by
  rw [Hotkeys.endCapture_fst]
  have harm : s.introducerJustPressed = false := by
    obtain ⟨k, hk⟩ := hm
    by_contra ha
    have hmode := h.armed.mp (by simpa using ha)
    simp [hk] at hmode
  refine ⟨rfl, ?_, ?_, rfl⟩ <;> simp [Capturing, harm]

theorem Tracks.mode_false (h : p.Tracks s) (hm : ¬ p.Capturing) : s.hotkeyMode = false := by
  by_contra hs
  exact hm (h.mode.mp (by simpa using hs))

theorem pressed_outside (hm : ¬ p.Capturing) (code : ℤ) : p.pressed cfg code =
    ⟨p.held + 1, if p.held + 1 = 1 ∧ code = cfg.introducer then .armed else .idle⟩ := by
  obtain ⟨held, mode⟩ := p
  cases mode with
  | capturing n => exact absurd ⟨n, rfl⟩ hm
  | _ => rfl

theorem typed_outside (hm : ¬ p.Capturing) : p.typed = 0 := by
  obtain ⟨held, mode⟩ := p
  cases mode with
  | capturing n => exact absurd ⟨n, rfl⟩ hm
  | _ => rfl

theorem Tracks.keyPressed (h : p.Tracks s) (code : ℤ) {r : Hotkeys × List Call}
    (hr : s.keyPressed cfg code = some r) : (p.pressed cfg code).Tracks r.1 := by
  by_cases hm : p.Capturing
  · have hmode : s.hotkeyMode = true := h.mode.mpr hm
    have hlen : s.hotSequenceLength = p.typed := h.length
    have harm : s.introducerJustPressed = true ↔ p.mode = .armed := h.armed
    simp only [Hotkeys.keyPressed, hmode, Bool.true_eq_false, ↓reduceIte, h.npressed] at hr
    obtain ⟨n, hn⟩ := hm
    by_cases ht : code = cfg.trailer
    · rw [if_pos ht] at hr
      cases hr
      have hp : p.pressed cfg code = { held := p.held + 1 } := by simp [pressed, hn, ht]
      rw [hp]
      exact h.endCapture ⟨n, hn⟩ _
    · rw [if_neg ht] at hr
      have hp : p.pressed cfg code = ⟨p.held + 1, .capturing (n + 1)⟩ := by simp [pressed, hn, ht]
      have htyped : p.typed = n := by simp [typed, hn]
      split at hr
      · cases hr
        rw [hp]
        refine ⟨rfl, ?_, ?_, ?_⟩
        · simp [Capturing]
        · simpa [hn] using harm
        · exact congrArg (· + 1) (hlen.trans htyped)
      · cases hr
  · have hlen : s.hotSequenceLength = 0 := h.length.trans (typed_outside hm)
    simp only [Hotkeys.keyPressed, h.mode_false hm, ↓reduceIte, h.npressed] at hr
    rw [pressed_outside hm]
    split at hr
    all_goals
      rename_i hi
      cases hr
    · rw [if_pos hi]
      refine ⟨rfl, ?_, ?_, hlen⟩ <;> simp [Capturing]
    · rw [if_neg hi]
      refine ⟨rfl, ?_, ?_, hlen⟩ <;> simp [Capturing]

theorem Tracks.keyReleased (h : p.Tracks s) (code : ℤ) :
    (p.released cfg code).Tracks (s.keyReleased cfg code).1 := by
  have hiff : s.npressed - 1 = 0 ∧ code = cfg.introducer ∧ s.introducerJustPressed = true ↔
      p.mode = .armed ∧ p.held - 1 = 0 ∧ code = cfg.introducer := by
    rw [h.npressed, h.armed]
    tauto
  have hlen : s.hotSequenceLength = (p.released cfg code).typed := by
    rw [typed_released]
    exact h.length
  have hn : s.npressed - 1 = p.held - 1 := by rw [h.npressed]
  by_cases hi : p.mode = .armed ∧ p.held - 1 = 0 ∧ code = cfg.introducer
  · simp only [Hotkeys.keyReleased, if_pos (hiff.mpr hi)]
    refine ⟨hn, ?_, ?_, hlen⟩ <;> simp [released, Capturing, hi]
  · simp only [Hotkeys.keyReleased, if_neg (mt hiff.mp hi)]
    have hp : p.released cfg code = { p with held := p.held - 1 } := by simp [released, hi]
    rw [hp] at hlen ⊢
    exact ⟨hn, h.mode, h.armed, hlen⟩

/-- One step: a phase keeps standing for the globals. -/
theorem Tracks.feed (h : p.Tracks s) {r : Hotkeys × List Call}
    (hr : s.feed cfg i = some r) : (p.next cfg i).Tracks r.1 := by
  cases i with
  | event ev =>
    simp only [Hotkeys.feed, Hotkeys.processInputEvent] at hr
    simp only [next]
    by_cases hk : ev.type = evKey
    · rw [if_pos hk] at hr ⊢
      by_cases h1 : ev.value = 1
      · rw [if_pos h1] at hr ⊢
        exact h.keyPressed _ hr
      · rw [if_neg h1] at hr ⊢
        by_cases h0 : ev.value = 0
        · rw [if_pos h0] at hr ⊢
          cases hr
          exact h.keyReleased _
        · rw [if_neg h0] at hr ⊢
          cases hr
          exact h
    · rw [if_neg hk] at hr ⊢
      cases hr
      exact h
  | alarm timerRunning =>
    simp only [Hotkeys.feed, Option.some.injEq] at hr
    subst hr
    cases timerRunning with
    | true => exact h
    | false =>
      by_cases hm : p.Capturing
      · have hend : Tracks { held := s.npressed } (s.endCapture cfg).1 :=
          h.endCapture hm s.npressed
        obtain ⟨n, hn⟩ := hm
        have hp : p.next cfg (.alarm false) = { held := s.npressed } := by
          simp [next, hn, h.npressed]
        rw [hp]
        simpa [Hotkeys.alarmHandler, h.mode.mpr ⟨n, hn⟩] using hend
      · have hp : p.next cfg (.alarm false) = p := by
          obtain ⟨held, mode⟩ := p
          cases mode with
          | capturing n => exact absurd ⟨n, rfl⟩ hm
          | _ => rfl
        rw [hp]
        simpa [Hotkeys.alarmHandler, h.mode_false hm] using h
  | idle =>
    simp only [Hotkeys.feed, Option.some.injEq] at hr
    subst hr
    have hmode : s.hotkeyMode = true ↔ p.Capturing := h.mode
    have harm : s.introducerJustPressed = true ↔ p.mode = .armed := h.armed
    obtain ⟨held, mode⟩ := p
    cases mode with
    | capturing n =>
      refine ⟨rfl, ?_, ?_, rfl⟩
      · simpa [next, Hotkeys.idleTick, Capturing] using hmode
      · simpa [next, Hotkeys.idleTick] using harm
    | _ => exact ⟨rfl, hmode, harm, rfl⟩

/-- The accesses of a step are inside the array when the count is at most
`maxSeq` before the step and after it, and only then. -/
theorem Tracks.bounded_iff (h : p.Tracks s) (hp : p.typed ≤ maxSeq) :
    s.Bounded cfg i ↔ (p.next cfg i).typed ≤ maxSeq := by
  have hlooks : s.LooksUp cfg i → s.hotSequenceLength ≤ maxSeq := fun _ => h.length ▸ hp
  unfold Hotkeys.Bounded
  rw [and_iff_left hlooks, h.length, Hotkeys.Writes, h.mode]
  by_cases hw : p.Capturing ∧ i.typed cfg = true
  · rw [typed_next_of_typed hw.1 hw.2, forall_prop_of_true hw]
    exact Nat.lt_iff_add_one_le
  · rw [typed_next_of_not hw]
    refine iff_of_true (fun h => absurd h hw) ?_
    split_ifs
    · exact Nat.zero_le _
    · exact hp

end Phase

/-! ### Whole streams -/

theorem inBounds_concat (is : List Input) (i : Input) :
    InBounds cfg (is ++ [i]) ↔ InBounds cfg is ∧
      ∃ s, Runs.run? (Hotkeys.feed cfg) {} is = some s ∧ s.Bounded cfg i := by
  refine ⟨fun h => ⟨fun pre j hpre => h pre j (hpre.trans (List.prefix_append _ _)),
    h is i List.prefix_rfl⟩, fun ⟨h, hi⟩ pre j hpre => ?_⟩
  rcases List.prefix_concat_iff.mp hpre with he | hp
  · obtain ⟨rfl, hij⟩ := List.append_inj' he rfl
    obtain rfl := List.singleton_inj.mp hij
    exact hi
  · exact h pre j hp

/-- The run of the daemon is reached, and its globals are those of the phase. -/
theorem tracks_run (is : List Input)
    (h : ∀ pre, pre <+: is → (Phase.after cfg pre).typed ≤ maxSeq) :
    InBounds cfg is ∧
      ∃ s, Runs.run? (Hotkeys.feed cfg) {} is = some s ∧ (Phase.after cfg is).Tracks s := by
  induction is using List.reverseRecOn with
  | nil =>
    refine ⟨fun pre i hpre => ?_, {}, rfl, Phase.tracks_start⟩
    simp at hpre
  | append_singleton is i ih =>
    obtain ⟨hin, s, hs, htr⟩ := ih fun pre hpre => h pre (hpre.trans (List.prefix_append _ _))
    have hb : s.Bounded cfg i := by
      rw [htr.bounded_iff (h is (List.prefix_append _ _)), ← Phase.after_concat]
      exact h _ List.prefix_rfl
    obtain ⟨r, hr⟩ := Option.isSome_iff_exists.mp (Hotkeys.feed_isSome_iff.mpr hb.1)
    refine ⟨(inBounds_concat is i).mpr ⟨hin, s, hs, hb⟩, r.1, ?_, ?_⟩
    · rw [Runs.run?_concat _ hs, hr]
      rfl
    · rw [Phase.after_concat]
      exact htr.feed hr

/-- A run all of whose steps are defined never counts more than `MAXSEQ` keys. -/
theorem typed_le_of_defined
    (h : ∀ pre, pre <+: is → ∃ s, Runs.run? (Hotkeys.feed cfg) {} pre = some s) :
    ∀ pre, pre <+: is → (Phase.after cfg pre).typed ≤ maxSeq := by
  induction is using List.reverseRecOn with
  | nil =>
    intro pre hpre
    rw [List.prefix_nil.mp hpre]
    exact Nat.zero_le _
  | append_singleton is i ih =>
    have hall := ih fun pre hpre => h pre (hpre.trans (List.prefix_append _ _))
    obtain ⟨-, s, hs, htr⟩ := tracks_run is hall
    have hle : (Phase.after cfg is).typed ≤ maxSeq := hall is List.prefix_rfl
    obtain ⟨s', hs'⟩ := h _ List.prefix_rfl
    rw [Runs.run?_concat _ hs] at hs'
    obtain ⟨r, hr, -⟩ := Option.map_eq_some_iff.mp hs'
    have hwrites := Hotkeys.feed_isSome_iff.mp (Option.isSome_of_eq_some hr)
    intro pre hpre
    rcases List.prefix_concat_iff.mp hpre with rfl | hp
    · rw [Phase.after_concat]
      exact (htr.bounded_iff hle).mp ⟨hwrites, fun _ => htr.length ▸ hle⟩
    · exact hall pre hp

/-- What stays inside the array is defined. -/
theorem InBounds.defined (h : InBounds cfg is) :
    ∀ pre, pre <+: is → ∃ s, Runs.run? (Hotkeys.feed cfg) {} pre = some s := by
  intro pre hpre
  rcases List.eq_nil_or_concat' pre with rfl | ⟨pre, i, rfl⟩
  · exact ⟨{}, rfl⟩
  · obtain ⟨s, hs, hwrites, -⟩ := h pre i hpre
    obtain ⟨r, hr⟩ := Option.isSome_iff_exists.mp (Hotkeys.feed_isSome_iff.mpr hwrites)
    refine ⟨r.1, ?_⟩
    rw [Runs.run?_concat _ hs, hr]
    rfl

theorem inBounds_iff_typed (cfg : Config) (is : List Input) :
    InBounds cfg is ↔ ∀ pre, pre <+: is → (Phase.after cfg pre).typed ≤ maxSeq :=
  ⟨fun h => typed_le_of_defined h.defined, fun h => (tracks_run is h).1⟩

/-- **When the capture buffer is large enough.** The accesses of a run stay
inside `hot_sequence` exactly when no stretch of a capture between idle ticks
has more than `MAXSEQ` keys typed in it. -/
theorem inBounds_iff (cfg : Config) (is : List Input) :
    InBounds cfg is ↔ StretchesWithin cfg maxSeq is :=
  (inBounds_iff_typed cfg is).trans (Phase.typed_le_iff cfg maxSeq is)

/-- Shift tapped, then nine keys within one hot interval: the ninth is stored
past the end of the array. -/
theorem not_inBounds_nine_keys :
    ¬ InBounds { introducer := 42, trailer := 28, hotInterval := 1000, actions := [] }
      ([keyDown 42, keyUp 42] ++ (List.replicate 9 [keyDown 30, keyUp 30]).flatten) := by
  rw [inBounds_iff_typed]
  intro h
  have hnine := h _ List.prefix_rfl
  exact absurd hnine (by decide)

end Legacy
end Launchpad
