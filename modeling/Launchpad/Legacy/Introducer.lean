/-
# The introducer and the keys held

`npressed` counts presses minus releases, and an idle tick sets it to zero even
while keys are held. On a stream of well-formed key events it is then the number
of keys held less the number held at the last idle tick (`held_run`), and can
fall below zero. A tap of the introducer begins a capture exactly when the
counter is zero (`recognises_iff`), so with all keys up and a negative counter
the tap is missed. Neither happens exactly when after an idle tick the keys held
never get fewer than they were at it (`introducerRecognised_iff`).
-/
import Mathlib.Data.Finset.Card
import Launchpad.Legacy.CaptureBuffer

namespace Launchpad
namespace Legacy

/-! ### Well-formed key events -/

/-- The keys down after one more input. -/
def heldStep (held : Finset ℤ) : Input → Finset ℤ
  | .event ev =>
    if ev.type = evKey then
      if ev.value = 1 then insert ev.code held
      else if ev.value = 0 then held.erase ev.code
      else held
    else held
  | _ => held

/-- A key that is pressed was up, one that is released was down. -/
def KeyOk (held : Finset ℤ) : Input → Prop
  | .event ev =>
    ev.type = evKey → (ev.value = 1 → ev.code ∉ held) ∧ (ev.value = 0 → ev.code ∈ held)
  | _ => True

instance (held : Finset ℤ) : ∀ i, Decidable (KeyOk held i)
  | .event ev => inferInstanceAs (Decidable (ev.type = evKey → _))
  | .alarm _ => .isTrue trivial
  | .idle => .isTrue trivial

/-- The keys down after the inputs `is`, all keys being up at the start. -/
def heldKeys (is : List Input) : Finset ℤ := Runs.run heldStep ∅ is

/-- Of every key presses and releases alternate. -/
def WellFormed (is : List Input) : Prop := Runs.Each heldStep KeyOk ∅ is

instance (is : List Input) : Decidable (WellFormed is) :=
  inferInstanceAs (Decidable (Runs.Each heldStep KeyOk ∅ is))

variable (cfg : Config)

/-- The introducer pressed and released begins a capture. -/
def Hotkeys.Recognises (s : Hotkeys) : Prop :=
  ∃ s', Runs.run? (Hotkeys.feed cfg) s [keyDown cfg.introducer, keyUp cfg.introducer] = some s' ∧
    s'.hotkeyMode = true

/-- At every moment of the run the counter is not negative, and with all keys up
and no capture under way a tap of the introducer is recognised. -/
def IntroducerRecognised (is : List Input) : Prop :=
  ∀ pre, pre <+: is → ∃ s, Runs.run? (Hotkeys.feed cfg) {} pre = some s ∧ 0 ≤ s.npressed ∧
    (heldKeys pre = ∅ → s.hotkeyMode = false → s.Recognises cfg)

/-- Between an idle tick and the next one the keys held never get fewer than
they were at the tick. -/
def TicksKept (is : List Input) : Prop :=
  ∀ pre mid, pre ++ .idle :: mid <+: is → .idle ∉ mid →
    (heldKeys pre).card ≤ (heldKeys (pre ++ .idle :: mid)).card

variable {cfg} {p : Phase} {s : Hotkeys} {i : Input} {is : List Input} {held : Finset ℤ}

/-! ### The counter and the keys -/

/-- One step other than an idle tick: the counter moves with the keys held. -/
theorem held_next (hok : KeyOk held i) (hi : i ≠ .idle) :
    (p.next cfg i).held = p.held + (heldStep held i).card - held.card := by
  cases i with
  | event ev =>
    simp only [Phase.next, heldStep]
    by_cases hk : ev.type = evKey
    · obtain ⟨hpress, hrelease⟩ := hok hk
      by_cases h1 : ev.value = 1
      · have hcard := Finset.card_insert_of_notMem (hpress h1)
        simp only [hk, h1, ↓reduceIte, Phase.pressed]
        omega
      · by_cases h0 : ev.value = 0
        · have hcard := Finset.card_erase_add_one (hrelease h0)
          simp only [hk, h0, ↓reduceIte, zero_ne_one, Phase.released]
          omega
        · simp only [hk, h1, h0, ↓reduceIte]
          omega
    · simp only [hk, ↓reduceIte]
      omega
  | alarm timerRunning =>
    have hheld : (p.next cfg (.alarm timerRunning)).held = p.held := by
      simp only [Phase.next]
      split <;> rfl
    simp only [hheld, heldStep]
    omega
  | idle => exact absurd rfl hi

/-- Between idle ticks the counter moves with the keys held. -/
theorem held_run (mid : List Input) (hok : Runs.Each heldStep KeyOk held mid)
    (hidle : .idle ∉ mid) :
    (Runs.run (Phase.next cfg) p mid).held =
      p.held + (Runs.run heldStep held mid).card - held.card := by
  induction mid generalizing p held with
  | nil => simp
  | cons i mid ih =>
    obtain ⟨hi, hmid⟩ := List.ne_and_not_mem_of_not_mem_cons hidle
    rw [Runs.run_cons, Runs.run_cons, ih hok.2 hmid, held_next hok.1 hi.symm]
    omega

theorem held_next_idle (p : Phase) : (p.next cfg .idle).held = 0 := by
  simp only [Phase.next]
  split <;> rfl

theorem WellFormed.of_append {pre : List Input} (h : WellFormed is) (hpre : pre <+: is) :
    WellFormed pre := by
  obtain ⟨post, rfl⟩ := hpre
  exact ((Runs.each_append _ _ _ _).mp h).1

/-- Before the first idle tick the counter is the number of keys held. -/
theorem held_after_of_not_mem (h : WellFormed is) (hidle : .idle ∉ is) :
    (Phase.after cfg is).held = (heldKeys is).card := by
  have hrun : (Phase.after cfg is).held = 0 + (heldKeys is).card - (∅ : Finset ℤ).card :=
    held_run is h hidle
  rw [hrun, Finset.card_empty]
  omega

/-- After an idle tick it falls short by the keys held at the tick. -/
theorem held_after_idle {pre mid : List Input} (h : WellFormed (pre ++ .idle :: mid))
    (hidle : .idle ∉ mid) :
    (Phase.after cfg (pre ++ .idle :: mid)).held =
      (heldKeys (pre ++ .idle :: mid)).card - (heldKeys pre).card := by
  have hok : Runs.Each heldStep KeyOk (heldKeys pre) mid :=
    ((Runs.each_append _ _ _ _).mp h).2.2
  have hafter : Phase.after cfg (pre ++ .idle :: mid) =
      Runs.run (Phase.next cfg) ((Phase.after cfg pre).next cfg .idle) mid := Runs.run_append _ _ _ _
  have hkeys : heldKeys (pre ++ .idle :: mid) = Runs.run heldStep (heldKeys pre) mid :=
    Runs.run_append _ _ _ _
  rw [hafter, hkeys, held_run mid hok hidle, held_next_idle]
  omega

theorem idle_not_mem_or_last (is : List Input) :
    .idle ∉ is ∨ ∃ pre mid, is = pre ++ .idle :: mid ∧ .idle ∉ mid := by
  induction is with
  | nil => exact .inl (by simp)
  | cons i is ih =>
    rcases ih with hnot | ⟨pre, mid, rfl, hmid⟩
    · by_cases hi : i = .idle
      · exact .inr ⟨[], is, by rw [hi]; rfl, hnot⟩
      · exact .inl (List.not_mem_cons_of_ne_of_not_mem (Ne.symm hi) hnot)
    · exact .inr ⟨i :: pre, mid, rfl, hmid⟩

theorem held_nonneg_iff (cfg : Config) (h : WellFormed is) :
    (∀ pre, pre <+: is → 0 ≤ (Phase.after cfg pre).held) ↔ TicksKept is := by
  constructor
  · intro hnonneg pre mid hpre hmid
    have hle := hnonneg _ hpre
    rw [held_after_idle (WellFormed.of_append h hpre) hmid] at hle
    omega
  · intro hkept pre hpre
    have hwf := WellFormed.of_append h hpre
    rcases idle_not_mem_or_last pre with hnot | ⟨pre, mid, rfl, hmid⟩
    · rw [held_after_of_not_mem hwf hnot]
      omega
    · rw [held_after_idle hwf hmid]
      have hle := hkept pre mid hpre hmid
      omega

/-- With all keys up a counter that is not negative is zero. -/
theorem held_eq_zero (h : WellFormed is) (hup : heldKeys is = ∅)
    (hnonneg : 0 ≤ (Phase.after cfg is).held) : (Phase.after cfg is).held = 0 := by
  rcases idle_not_mem_or_last is with hnot | ⟨pre, mid, rfl, hmid⟩
  · rw [held_after_of_not_mem h hnot, hup]
    rfl
  · rw [held_after_idle h hmid, hup, Finset.card_empty] at hnonneg ⊢
    omega

/-! ### The tap of the introducer -/

/-- A tap begins a capture exactly when the counter is zero. -/
theorem Hotkeys.recognises_iff (hm : s.hotkeyMode = false) :
    s.Recognises cfg ↔ s.npressed = 0 := by
  have hdown : s.feed cfg (keyDown cfg.introducer) =
      some ({ s with
        npressed := s.npressed + 1, introducerJustPressed := decide (s.npressed = 0) }, []) := by
    have hiff : s.npressed + 1 = 1 ↔ s.npressed = 0 := by omega
    simp only [feed, keyDown, processInputEvent, keyPressed, ↓reduceIte, hm, hiff, and_true]
    by_cases h0 : s.npressed = 0
    · simp [h0]
    · simp [h0]
  have hrun : Runs.run? (Hotkeys.feed cfg) s [keyDown cfg.introducer, keyUp cfg.introducer] =
      some (({ s with
        npressed := s.npressed + 1, introducerJustPressed := decide (s.npressed = 0) } :
          Hotkeys).keyReleased cfg cfg.introducer).1 := by
    simp only [Runs.run?, hdown, Option.bind_some]
    rfl
  unfold Recognises
  rw [hrun]
  by_cases h0 : s.npressed = 0
  · simp [keyReleased, h0]
  · simp [keyReleased, h0, hm]

/-! ### Whole streams -/

/-- **When the introducer is always recognised.** For well-formed key events,
exactly when no stretch of a capture overruns the buffer and the keys held never
get fewer than they were at the last idle tick. -/
theorem introducerRecognised_iff (h : WellFormed is) :
    IntroducerRecognised cfg is ↔ StretchesWithin cfg maxSeq is ∧ TicksKept is := by
  rw [← Phase.typed_le_iff, ← held_nonneg_iff cfg h]
  constructor
  · intro hrec
    have htyped := typed_le_of_defined fun pre hpre =>
      let ⟨s, hs, _⟩ := hrec pre hpre
      ⟨s, hs⟩
    refine ⟨htyped, fun pre hpre => ?_⟩
    obtain ⟨s, hs, hnonneg, -⟩ := hrec pre hpre
    obtain ⟨-, s', hs', htr⟩ := tracks_run pre fun q hq => htyped q (hq.trans hpre)
    obtain rfl := Option.some.inj (hs.symm.trans hs')
    rwa [← htr.npressed]
  · rintro ⟨htyped, hnonneg⟩ pre hpre
    obtain ⟨-, s, hs, htr⟩ := tracks_run pre fun q hq => htyped q (hq.trans hpre)
    refine ⟨s, hs, htr.npressed ▸ hnonneg pre hpre, fun hup hm => ?_⟩
    rw [Hotkeys.recognises_iff hm, htr.npressed]
    exact held_eq_zero (WellFormed.of_append h hpre) hup (hnonneg pre hpre)

/-- A typed and released, and no idle tick. -/
theorem introducerRecognised_typed :
    IntroducerRecognised ⟨42, 28, 1000, []⟩ [keyDown 30, keyUp 30] := by
  have hwf : WellFormed [keyDown 30, keyUp 30] := by decide
  refine (introducerRecognised_iff hwf).mpr ⟨?_, fun pre mid hpre => ?_⟩
  · rw [← Phase.typed_le_iff]
    decide
  · have hidle : Input.idle ∈ [keyDown 30, keyUp 30] := hpre.subset (by simp)
    simp [keyDown, keyUp] at hidle

/-- A held for a second and released: the counter is -1, and the next tap of
Shift is missed. -/
theorem not_introducerRecognised_held :
    WellFormed [keyDown 30, .idle, keyUp 30] ∧
      (∃ s, Runs.run? (Hotkeys.feed ⟨42, 28, 1000, []⟩) {} [keyDown 30, .idle, keyUp 30] = some s ∧
        s.npressed = -1 ∧ ¬ s.Recognises ⟨42, 28, 1000, []⟩) ∧
      ¬ IntroducerRecognised ⟨42, 28, 1000, []⟩ [keyDown 30, .idle, keyUp 30] := by
  refine ⟨by decide, ⟨_, rfl, rfl, ?_⟩, fun h => ?_⟩
  · rw [Hotkeys.recognises_iff rfl]
    decide
  · obtain ⟨s, hs, hnonneg, -⟩ := h _ List.prefix_rfl
    obtain rfl := Option.some.inj hs
    exact absurd hnonneg (by decide)

end Legacy
end Launchpad
