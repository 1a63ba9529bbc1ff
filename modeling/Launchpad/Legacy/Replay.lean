/-
# The replay of an unbound sequence

The trailer and the alarm end a capture with the same lines. A sequence with no
action is meant to reach the framework as if it had been typed: a loop sends
each of its codes. The length of the buffer is set back between the lookup and
that loop, and the loop runs up to the length, so it sends nothing
(`sentKeys_endCapture`). What was typed is lost unless nothing was typed or the
sequence has an action (`replays_iff`).
-/
import Launchpad.Legacy.CaptureBuffer

namespace Launchpad
namespace Legacy

/-- What ends a capture: a genuine alarm, or the press of the trailer. -/
def Input.completes (cfg : Config) : Input → Bool
  | .event ev => ev.type = evKey ∧ ev.value = 1 ∧ ev.code = cfg.trailer
  | .alarm timerRunning => !timerRunning
  | .idle => false

/-- The keys a step sends to the framework. -/
def sentKeys (calls : List Call) : List (RawKeyCode × SendMode) :=
  calls.filterMap fun
    | .sendKey code mode => some (code, mode)
    | _ => none

/-- The sequences a step looks up. -/
def lookups (calls : List Call) : List (List RawKeyCode) :=
  calls.filterMap fun
    | .findSequenceAction seq => some seq
    | _ => none

namespace Hotkeys

/-- The part of the buffer in use. -/
def captured (s : Hotkeys) : List RawKeyCode := s.hotSequence.toList.take s.hotSequenceLength

/-- The input ends the capture and sends every captured key, in order and
unmodified, unless the sequence has an action. -/
def Replays (cfg : Config) (s : Hotkeys) (i : Input) : Prop :=
  ∃ r, s.feed cfg i = some r ∧
    sentKeys r.2 =
      if (findSequenceAction cfg.actions s.captured).isSome then []
      else s.captured.map fun code => (code, .normal)

variable {cfg : Config} {s : Hotkeys} {i : Input}

theorem captured_eq_nil (h : s.hotSequenceLength = 0) : s.captured = [] := by
  rw [captured, h, List.take_zero]

theorem captured_ne_nil (h : s.hotSequenceLength > 0) : s.captured ≠ [] := by
  intro hnil
  rcases List.take_eq_nil_iff.mp hnil with h0 | hbuf
  · omega
  · have hlen : s.hotSequence.toList.length = maxSeq := Vector.length_toList
    rw [hbuf] at hlen
    cases hlen

/-- Both handlers stop the timer, let go of the input and run the same lines. -/
theorem feed_of_completes (hm : s.hotkeyMode = true) (hi : i.completes cfg = true) :
    ∃ s', s.feed cfg i =
      some (s', [.engageHotkeyTimer 0, .releaseInput] ++ (s.endCapture cfg).2) := by
  cases i with
  | event ev =>
    obtain ⟨hk, h1, ht⟩ : ev.type = evKey ∧ ev.value = 1 ∧ ev.code = cfg.trailer := by
      simpa [Input.completes] using hi
    have hend : (({ s with npressed := s.npressed + 1 } : Hotkeys).endCapture cfg).2 =
        (s.endCapture cfg).2 := by
      unfold endCapture
      dsimp only
      split
      · split <;> rfl
      · rfl
    refine ⟨(({ s with npressed := s.npressed + 1 } : Hotkeys).endCapture cfg).1, ?_⟩
    rw [← hend]
    simp [feed, processInputEvent, keyPressed, hk, h1, ht, hm]
  | alarm timerRunning =>
    cases timerRunning with
    | true => cases hi
    | false => exact ⟨(s.endCapture cfg).1, by simp [feed, alarmHandler, hm]⟩
  | idle => cases hi

/-- The loop runs up to the length just set to zero. -/
theorem sentKeys_endCapture (s : Hotkeys) : sentKeys (s.endCapture cfg).2 = [] := by
  unfold endCapture
  by_cases h0 : s.hotSequenceLength > 0
  · simp only [h0, ↓reduceIte]
    split <;> rfl
  · simp only [h0, ↓reduceIte]
    rfl

theorem lookups_endCapture (s : Hotkeys) :
    lookups (s.endCapture cfg).2 = if s.captured = [] then [] else [s.captured] := by
  unfold endCapture
  by_cases h0 : s.hotSequenceLength > 0
  · rw [if_neg (captured_ne_nil h0)]
    simp only [h0, ↓reduceIte]
    split <;> rfl
  · rw [if_pos (captured_eq_nil (by omega))]
    simp only [h0, ↓reduceIte]
    rfl

/-- A completion sends nothing, so it is right where nothing is to be sent. -/
theorem replays_iff_nil (hm : s.hotkeyMode = true) (hi : i.completes cfg = true) :
    s.Replays cfg i ↔
      [] = if (findSequenceAction cfg.actions s.captured).isSome then []
        else s.captured.map fun code => (code, SendMode.normal) := by
  obtain ⟨s', hs'⟩ := feed_of_completes hm hi
  have hsent : sentKeys ([.engageHotkeyTimer 0, .releaseInput] ++ (s.endCapture cfg).2) = [] :=
    sentKeys_endCapture s
  refine ⟨fun ⟨r, hr, hkeys⟩ => ?_, fun hkeys => ⟨_, hs', hsent.trans hkeys⟩⟩
  obtain rfl := Option.some.inj (hr.symm.trans hs')
  exact hsent.symm.trans hkeys

/-- **When the keys of a capture are replayed as they should be.** Exactly when
none was captured or their sequence has an action. -/
theorem replays_iff (hm : s.hotkeyMode = true) (hi : i.completes cfg = true) :
    s.Replays cfg i ↔
      s.captured = [] ∨ (findSequenceAction cfg.actions s.captured).isSome = true := by
  rw [replays_iff_nil hm hi]
  split
  · rename_i hbound
    exact iff_of_true rfl (.inr hbound)
  · rename_i hbound
    rw [eq_comm, List.map_eq_nil_iff, or_iff_left hbound]

/-- Shift tapped three times, the screenshot, and the alarm. -/
theorem replays_screenshot :
    ∃ s, Runs.run? (Hotkeys.feed ⟨42, 28, 1000, []⟩) {}
        [keyDown 42, keyUp 42, keyDown 42, keyUp 42, keyDown 42, keyUp 42] = some s ∧
      s.Replays ⟨42, 28, 1000, []⟩ (.alarm false) := by
  refine ⟨_, rfl, (replays_iff rfl rfl).mpr (.inr ?_)⟩
  decide

/-- Shift tapped, A and B typed, and the trailer: neither is sent on. -/
theorem not_replays_trailer :
    ∃ s, Runs.run? (Hotkeys.feed ⟨42, 28, 1000, []⟩) {}
        [keyDown 42, keyUp 42, keyDown 30, keyUp 30, keyDown 48, keyUp 48] = some s ∧
      s.hotkeyMode = true ∧ ¬ s.Replays ⟨42, 28, 1000, []⟩ (keyDown 28) := by
  refine ⟨_, rfl, rfl, ?_⟩
  rw [replays_iff_nil rfl rfl]
  decide

end Hotkeys
end Legacy
end Launchpad
