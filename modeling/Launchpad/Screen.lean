/-
# The screen is given back

The status bar draws over the screen and writes the screen back when it is
hidden. Along a run the display under the bar stays what it was
(`Launchpad/Overlay.lean`), so the screen is restored exactly when the overlay
is off. The overlay is on during a capture, and a completed or expired capture
takes it off; but a reload shows a message that nothing takes off until the next
capture ends, and nothing takes the overlay off when the program ends.
`screen_restored_iff` says that these are the only two ways to lose the screen.
-/
import Launchpad.CaptureMode

namespace Launchpad

open KeyCodes

namespace CaptureMode

variable {m m' : CaptureMode}

/-- The overlay is on in a capture and off otherwise. -/
structure Shown (m : CaptureMode) : Prop extends Held m where
  overlay : m.overlay = m.isCapturing

theorem Shown.step (h : Shown m) (hs : Step m m') : Shown m' := by
  refine ⟨h.toHeld.step hs, ?_⟩
  cases hs with
  | quiet => exact h.overlay
  | start => rfl
  | append => exact (h.matcher rfl).symm
  | complete => rfl
  | expire => rfl

theorem Shown.reload (h : Shown m) (hgrabbed : m.grabbed = true) : Shown m.reload :=
  ⟨h.toHeld.reload, hgrabbed.symm.trans h.grabbed⟩

end CaptureMode

namespace Application

variable {δ : Type*} [IDisplay δ] {runner : CommandRunner} {app app' : Application δ} {cs : List Call}
  {d₀ : δ}

/-- No overlay is pending, and every pixel is that of `d₀`. -/
structure Restored (d₀ : δ) (app : Application δ) : Prop where
  inactive : app.statusBar.active = false
  pixels : ∀ p, p.1 < (bounds d₀).width → p.2 < (bounds d₀).height →
    getPixel app.statusBar.display p = getPixel d₀ p

/-- The bar of a reachable state, over the display of its start. -/
structure OnScreen (d₀ : δ) (app : Application δ) : Prop extends Reachable app where
  bar : StatusBar.OverlayInv d₀ app.statusBar

theorem OnScreen.restored_iff (h : OnScreen d₀ app) : Restored d₀ app ↔ app.overlay = false := by
  constructor
  · intro hrestored
    rw [← h.active]
    exact hrestored.inactive
  · intro hoff
    have hinactive : app.statusBar.active = false := h.active.trans hoff
    exact ⟨hinactive, fun p hp _ => h.bar.restored hinactive p hp⟩

variable [LawfulDisplay δ]

theorem OnScreen.acts (h : OnScreen d₀ app) (hacts : Acts app app' cs) (hheld : app'.mode.Held) :
    OnScreen d₀ app' := by
  refine ⟨h.toReachable.acts hacts hheld, ?_⟩
  rw [hacts.statusBar]
  refine h.bar.run cs (fun hon => ?_) hacts.onOverlay
  rw [h.active]
  exact hon

theorem OnScreen.feed (h : OnScreen d₀ app) (i : AppInput) : OnScreen d₀ (app.feed runner i) := by
  cases i with
  | step poll =>
    refine step_inv (I := OnScreen d₀) (fun happ hm => ?_) h poll
    obtain ⟨⟨cs, hacts⟩, hmode⟩ := hm
    exact happ.acts hacts (happ.held.step hmode)
  | reload dir =>
    exact h.acts (reloadConfiguration_acts app dir) (held_reloadConfiguration h.held dir)

/-- A reload is served while the input is grabbed. -/
def ReloadGrabbed (app : Application δ) : AppInput → Prop
  | .reload _ => app.grabbed = true
  | .step _ => True

omit [LawfulDisplay δ] in
theorem shown_feed {i : AppInput} (h : app.mode.Shown) (hi : ReloadGrabbed app i) :
    (app.feed runner i).mode.Shown := by
  cases i with
  | step poll =>
    exact step_inv (I := fun app => app.mode.Shown) (fun happ hm => happ.step hm.2) h poll
  | reload dir =>
    show (app.reloadConfiguration dir).mode.Shown
    rw [reloadConfiguration_mode]
    exact h.reload hi

variable {display : δ}

theorem onScreen_after (runner : CommandRunner) (hw : 0 < (bounds display).width) (font : FontRenderer)
    (configDirectory : Str) (dir : Directory) (is : List AppInput) :
    OnScreen display ((new display font configDirectory dir).after runner is) := by
  refine Runs.run_inv _ (fun app i h => h.feed i) _ is ?_
  refine ⟨reachable_after font configDirectory dir runner hw [], rfl, fun p _ => rfl, nofun, ?_⟩
  exact fun _ p _ => rfl

omit [LawfulDisplay δ] in
/-- With every reload served on a grab, the overlay is on exactly while the
input is grabbed. -/
theorem overlay_eq_grabbed (runner : CommandRunner) (display : δ) (font : FontRenderer)
    (configDirectory : Str) (dir : Directory) {is : List AppInput}
    (heach : Runs.Each (feed runner) ReloadGrabbed (new display font configDirectory dir) is) :
    ((new display font configDirectory dir).after runner is).overlay =
      ((new display font configDirectory dir).after runner is).grabbed := by
  have hnew : (new display font configDirectory dir).mode.Shown := ⟨⟨rfl, nofun⟩, rfl⟩
  have hshown : ((new display font configDirectory dir).after runner is).mode.Shown :=
    Runs.run_inv_of_each _ (I := fun app => app.mode.Shown) (C := ReloadGrabbed)
      (fun app i happ hi => shown_feed happ hi) _ is hnew heach
  exact hshown.overlay.trans hshown.grabbed.symm

/-- A reload without a grab leaves its message on the screen. -/
theorem OnScreen.reload_lost (h : OnScreen d₀ app) (dir : Directory) :
    ¬ Restored d₀ (app.reloadConfiguration dir) := by
  intro hrestored
  have hnext : OnScreen d₀ (app.feed (fun _ _ => 0) (.reload dir)) := h.feed (.reload dir)
  have hoff := hnext.restored_iff.mp hrestored
  have hon := congrArg CaptureMode.overlay (reloadConfiguration_mode app dir)
  have hclash : true = false := hon.symm.trans hoff
  exact Bool.false_ne_true hclash.symm

/-- **When the screen is given back.** At every point of a run at which the
input is not grabbed, and after the program has ended, no overlay is pending and
the screen is what it was before the first draw, if and only if every reload is
served while the input is grabbed and the input is not grabbed at the end. -/
theorem screen_restored_iff (runner : CommandRunner) (hw : 0 < (bounds display).width)
    (font : FontRenderer) (configDirectory : Str) (dir : Directory) (is : List AppInput) :
    ((∀ pre, pre <+: is →
        ((new display font configDirectory dir).after runner pre).grabbed = false →
        Restored display ((new display font configDirectory dir).after runner pre)) ∧
      Restored display ((new display font configDirectory dir).after runner is).destroy) ↔
      Runs.Each (feed runner) ReloadGrabbed (new display font configDirectory dir) is ∧
        ((new display font configDirectory dir).after runner is).grabbed = false := by
  have hscreen := onScreen_after runner hw font configDirectory dir
  constructor
  · rintro ⟨hall, hend⟩
    have heach : Runs.Each (feed runner) ReloadGrabbed (new display font configDirectory dir) is := by
      apply Runs.each_of_forall
      intro pre i post his
      cases i with
      | step poll => trivial
      | reload dir' =>
        by_cases hgrab : ((new display font configDirectory dir).after runner pre).grabbed = true
        · exact hgrab
        · have hgrabbed : ((new display font configDirectory dir).after runner pre).grabbed = false := by
            simpa using hgrab
          have hnext : pre ++ [.reload dir'] <+: is := ⟨post, by rw [his, List.append_assoc]; rfl⟩
          have hafter := hall _ hnext
          rw [after, Runs.run_append] at hafter
          exact absurd (hafter hgrabbed) ((hscreen pre).reload_lost dir')
    have hoff := (hscreen is).restored_iff.mp hend
    rw [overlay_eq_grabbed runner display font configDirectory dir heach] at hoff
    exact ⟨heach, hoff⟩
  · rintro ⟨heach, hgrabbed⟩
    constructor
    · rintro pre ⟨post, rfl⟩ hpre
      rw [Runs.each_append] at heach
      have hoverlay := overlay_eq_grabbed runner display font configDirectory dir heach.1
      exact (hscreen pre).restored_iff.mpr (hoverlay.trans hpre)
    · have hoverlay := overlay_eq_grabbed runner display font configDirectory dir heach
      exact (hscreen is).restored_iff.mpr (hoverlay.trans hgrabbed)

/-- Shift is tapped, and the timer runs out. -/
def timedOut : List AppInput :=
  [.step ⟨[⟨kpkeyShift, .pressed, 0⟩, ⟨kpkeyShift, .released, 0⟩], 0⟩, .step ⟨[], 700000000⟩]

theorem restored_timedOut :
    Restored (MockDisplay.new ⟨1, 1, 4⟩) ((new (MockDisplay.new ⟨1, 1, 4⟩) ⟨fun _ => 0⟩ [] noFiles).after
      (fun _ _ => 0) timedOut).destroy := by
  have heach : Runs.Each (feed fun _ _ => 0) ReloadGrabbed
      (new (MockDisplay.new ⟨1, 1, 4⟩) ⟨fun _ => 0⟩ [] noFiles) timedOut := ⟨trivial, trivial, trivial⟩
  exact ((screen_restored_iff (fun _ _ => 0) (by decide) ⟨fun _ => 0⟩ [] noFiles timedOut).mpr
    ⟨heach, by decide +kernel⟩).2

/-- A reload while nothing is captured leaves its message on the screen. -/
theorem not_restored_reload :
    ¬ ∀ (runner : CommandRunner) (display : MockDisplay) (font : FontRenderer)
      (configDirectory : Str) (dir : Directory) (is : List AppInput), 0 < display.bounds.width →
      ((new display font configDirectory dir).after runner is).grabbed = false →
      Restored display ((new display font configDirectory dir).after runner is) := by
  intro hall
  have h := hall (fun _ _ => 0) (.new ⟨1, 1, 4⟩) ⟨fun _ => 0⟩ [] noFiles
    [.reload noFiles, .step ⟨[], 0⟩] (by decide) (by decide +kernel)
  have hactive : ((new (MockDisplay.new ⟨1, 1, 4⟩) ⟨fun _ => 0⟩ [] noFiles).after (fun _ _ => 0)
      [.reload noFiles, .step ⟨[], 0⟩]).statusBar.active = true := by decide +kernel
  rw [h.inactive] at hactive
  exact nomatch hactive

end Application
end Launchpad
