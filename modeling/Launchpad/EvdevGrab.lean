/-
# Grabbing the devices

`grab`, `release` and `is_grabbed` of `src/hal/evdev_input_source.cpp`. A grab is
asked of the kernel for one descriptor after the other, and each call may fail;
`grab` looks at none of the answers. So it reports a grab of all devices, and its
flag says the same, exactly when no call has failed (`grab_iff`). The flag is only
wrong in this direction: while it is off no device is held (`free_of_not_grabbed`).
-/
import Launchpad.EvdevInput

namespace Launchpad

/-- `DeviceGroup`: for every descriptor whether the kernel has it grabbed for us,
and the flag. -/
structure DeviceGroup where
  held : List Bool
  grabbed : Bool := false
  deriving DecidableEq

namespace EvdevInputSource

/-- `ioctl(fd, EVIOCGRAB, 1)`: what fails changes nothing. -/
def ioctlGrab (fails held : Bool) : Bool := if fails then held else true

/-- The loop of `grab`; the call for descriptor `i` may fail. -/
def grabDevices (fails : ℕ → Bool) (held : List Bool) : List Bool :=
  held.mapIdx fun i h => ioctlGrab (fails i) h

def grab (fails : ℕ → Bool) (group : DeviceGroup) : Except Str Unit × DeviceGroup :=
  (.ok (), { held := grabDevices fails group.held, grabbed := true })

/-- `ioctl(fd, EVIOCGRAB, 0)` leaves a device free, also when there was no grab. -/
def release (group : DeviceGroup) : Except Str Unit × DeviceGroup :=
  if !group.grabbed then (.ok (), group)
  else (.ok (), { held := group.held.map fun _ => false, grabbed := false })

def isGrabbed (group : DeviceGroup) : Bool := group.grabbed

/-! ### All or nothing -/

/-- No call of `grab` fails. -/
def NoneFails (fails : ℕ → Bool) (group : DeviceGroup) : Prop :=
  ∀ i < group.held.length, fails i = false

/-- The result and the flag say whether all devices have been grabbed, and a grab
that fails leaves none grabbed. -/
structure AllOrNothing (fails : ℕ → Bool) (group : DeviceGroup) : Prop where
  result : (grab fails group).1.isOk = true ↔ NoneFails fails group
  flag : isGrabbed (grab fails group).2 = true ↔ ∀ h ∈ (grab fails group).2.held, h = true
  rollback : (grab fails group).1.isOk = false → ∀ h ∈ (grab fails group).2.held, h = false

variable {fails : ℕ → Bool} {group : DeviceGroup}

theorem held_grabDevices (h : NoneFails fails group) :
    ∀ g ∈ grabDevices fails group.held, g = true := by
  intro g hg
  obtain ⟨i, hi, rfl⟩ := List.mem_mapIdx.mp hg
  rw [ioctlGrab, h i hi]
  rfl

theorem allOrNothing_iff : AllOrNothing fails group ↔ NoneFails fails group := by
  constructor
  · exact fun h => h.result.mp rfl
  · intro h
    exact ⟨iff_of_true rfl h, iff_of_true rfl (held_grabDevices h), nofun⟩

/-- **Grabbing.** The grab is all or nothing if and only if no call of it fails. -/
theorem grab_iff (fails : ℕ → Bool) (group : DeviceGroup) :
    AllOrNothing fails group ↔ NoneFails fails group := allOrNothing_iff

/-- The second of two devices cannot be grabbed. -/
theorem not_allOrNothing_second :
    ¬ ∀ (fails : ℕ → Bool) (group : DeviceGroup), AllOrNothing fails group := by
  intro hall
  have hnone := allOrNothing_iff.mp (hall (fun i => i = 1) ⟨[false, false], false⟩)
  exact Bool.noConfusion (hnone 1 (by decide))

/-! ### The flag over a run -/

/-- What the application asks for. -/
inductive GrabCall
  | grab (fails : ℕ → Bool)
  | release

def serve (group : DeviceGroup) : GrabCall → DeviceGroup
  | .grab fails => (grab fails group).2
  | .release => (release group).2

/-- While the flag is off, no device is held. -/
def FreeUnlessGrabbed (group : DeviceGroup) : Prop :=
  group.grabbed = false → ∀ h ∈ group.held, h = false

theorem FreeUnlessGrabbed.step (hfree : FreeUnlessGrabbed group) (call : GrabCall) :
    FreeUnlessGrabbed (serve group call) := by
  cases call with
  | grab fails => exact fun hoff => Bool.noConfusion hoff
  | release =>
    unfold serve release
    by_cases hgrabbed : group.grabbed = true
    · rw [if_neg (by simp [hgrabbed])]
      intro _ h hh
      obtain ⟨_, _, rfl⟩ := List.mem_map.mp hh
      rfl
    · rw [if_pos (by simp [hgrabbed])]
      exact hfree

theorem free_of_not_grabbed (n : ℕ) (calls : List GrabCall) :
    FreeUnlessGrabbed (Runs.run serve { held := List.replicate n false } calls) :=
  Runs.run_inv _ (fun _ call hfree => hfree.step call) _ calls
    fun _ _ hh => List.eq_of_mem_replicate hh

end EvdevInputSource
end Launchpad
