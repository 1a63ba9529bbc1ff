/-
# The status bar over a history of calls

What a bar is after a list of calls, of which only three kinds concern it. As
long as results are shown only on an overlay that is on, the bar keeps
`OverlayInv`, and on a display of some width it is active exactly when the
overlay is on.
-/
import Launchpad.StatusBar
import Launchpad.ActionExecutor

namespace Launchpad
namespace StatusBar

variable {δ : Type*} [IDisplay δ]

/-- What a call does to the bar. -/
def call (b : StatusBar δ) : Call → StatusBar δ
  | .showStatus message => b.showStatus message
  | .showResult success => b.showResult success
  | .hideStatus => b.hideStatus
  | _ => b

/-- The bar has some width, and something to write back when it is active. -/
structure Usable (b : StatusBar δ) : Prop where
  width_pos : 0 < (bounds b.display).width
  saved : b.Saved

theorem showResult_active (b : StatusBar δ) (success : Bool) :
    (b.showResult success).active = b.active := by
  unfold showResult
  split_ifs <;> rfl

theorem bounds_call (b : StatusBar δ) (c : Call) :
    bounds (b.call c).display = bounds b.display := by
  cases c with
  | showStatus message => exact bounds_showStatus b message
  | showResult success => exact bounds_showResult b success
  | hideStatus => exact bounds_hideStatus b
  | _ => rfl

theorem Usable.call {b : StatusBar δ} (h : b.Usable) (c : Call) : (b.call c).Usable := by
  refine ⟨by rw [bounds_call]; exact h.width_pos, ?_⟩
  cases c with
  | showStatus message => exact h.saved.showStatus h.width_pos message
  | showResult success => exact h.saved.showResult success
  | hideStatus => exact h.saved.hideStatus
  | _ => exact h.saved

/-- A usable bar is active when the overlay is on. -/
theorem Usable.call_active {b : StatusBar δ} (h : b.Usable) (c : Call) :
    (b.call c).active = overlayStep b.active c := by
  cases c with
  | showStatus message => exact showStatus_active b message
  | showResult success => exact showResult_active b success
  | hideStatus => exact hideStatus_active h.saved
  | _ => rfl

theorem Usable.run {b : StatusBar δ} (h : b.Usable) (cs : List Call) :
    (Runs.run StatusBar.call b cs).Usable ∧
      (Runs.run StatusBar.call b cs).active = Runs.run overlayStep b.active cs := by
  induction cs generalizing b with
  | nil => exact ⟨h, rfl⟩
  | cons c cs ih =>
    obtain ⟨husable, hactive⟩ := ih (h.call c)
    rw [Runs.run_cons, Runs.run_cons]
    exact ⟨husable, by rw [hactive, h.call_active c]⟩

theorem OverlayInv.call [LawfulDisplay δ] {d₀ : δ} {b : StatusBar δ} {on : Bool}
    (h : OverlayInv d₀ b) (hactive : on = true → b.active = true) {c : Call} (hc : c.OnOverlay on) :
    OverlayInv d₀ (b.call c) ∧ (overlayStep on c = true → (b.call c).active = true) := by
  cases c with
  | showStatus message => exact ⟨h.showStatus message, fun _ => showStatus_active b message⟩
  | showResult success =>
    exact ⟨h.showResult (hactive hc) success, fun hon => (showResult_active b success).trans (hactive hon)⟩
  | hideStatus => exact ⟨h.hideStatus, nofun⟩
  | _ => exact ⟨h, hactive⟩

/-- A history that shows results only on an overlay keeps the display under it. -/
theorem OverlayInv.run [LawfulDisplay δ] {d₀ : δ} (cs : List Call) {b : StatusBar δ} {on : Bool}
    (h : OverlayInv d₀ b) (hactive : on = true → b.active = true)
    (hcs : Runs.Each overlayStep Call.OnOverlay on cs) : OverlayInv d₀ (Runs.run StatusBar.call b cs) := by
  induction cs generalizing b on with
  | nil => exact h
  | cons c cs ih =>
    obtain ⟨hinv, hon⟩ := h.call hactive hcs.1
    exact ih hinv hon hcs.2

end StatusBar
end Launchpad
