/-
# Displays

`IDisplay` of `include/launchpad/hal/display.hpp`. Nothing that is done to a
display changes its geometry, which the class carries; a display is lawful when
it behaves as an array of pixels (`LawfulDisplay`). `MockDisplay` is one.

The law about the pixel that is written says only that a level read from a
display can be written back: a packed framebuffer keeps sixteen levels, not 256.
-/
import Launchpad.Units
import Launchpad.Cells
import Mathlib.Tactic.Ring

namespace Launchpad

structure DisplayBounds where
  width : ℕ := 0
  height : ℕ := 0
  bitsPerPixel : UInt8 := 4
  deriving DecidableEq

structure UpdateRegion where
  x : ℕ := 0
  y : ℕ := 0
  width : ℕ := 0
  height : ℕ := 0
  deriving DecidableEq

/-- A display; a pixel is named by its coordinates `(x, y)`. -/
class IDisplay (δ : Type*) where
  bounds : δ → DisplayBounds
  setPixel : δ → ℕ × ℕ → UInt8 → δ
  getPixel : δ → ℕ × ℕ → UInt8
  update : δ → UpdateRegion → δ
  bounds_setPixel (d : δ) (p : ℕ × ℕ) (level : UInt8) : bounds (setPixel d p level) = bounds d
  bounds_update (d : δ) (region : UpdateRegion) : bounds (update d region) = bounds d

export IDisplay (bounds setPixel getPixel update)

attribute [simp] IDisplay.bounds_setPixel IDisplay.bounds_update

/-- A display that behaves as an array of pixels. -/
class LawfulDisplay (δ : Type*) [IDisplay δ] : Prop where
  getPixel_setPixel_ne (d : δ) (p q : ℕ × ℕ) (level : UInt8) :
    q ≠ p → getPixel (setPixel d p level) q = getPixel d q
  getPixel_setPixel_back (d d' : δ) (p : ℕ × ℕ) :
    bounds d' = bounds d → getPixel (setPixel d' p (getPixel d p)) p = getPixel d p
  getPixel_update (d : δ) (region : UpdateRegion) (p : ℕ × ℕ) :
    getPixel (update d region) p = getPixel d p

export LawfulDisplay (getPixel_setPixel_ne getPixel_setPixel_back getPixel_update)

attribute [simp] LawfulDisplay.getPixel_update

/-! ### The display of the tests -/

/-- `MockDisplay`; a pixel's index is computed without overflow. -/
structure MockDisplay where
  bounds : DisplayBounds
  pixels : Array UInt8
  updates : List UpdateRegion := []
  size_pixels : pixels.size = bounds.width * bounds.height

namespace MockDisplay

/-- The constructor: a white screen. -/
def new (bounds : DisplayBounds) : MockDisplay where
  bounds := bounds
  pixels := Array.replicate (bounds.width * bounds.height) 0xFF
  size_pixels := Array.size_replicate

/-- Where the pixel of a display of that width is. -/
def index (width : ℕ) (p : ℕ × ℕ) : ℕ := p.2 * width + p.1

theorem index_lt {width height : ℕ} {p : ℕ × ℕ} (hx : p.1 < width) (hy : p.2 < height) :
    index width p < width * height := by
  have hrow : (p.2 + 1) * width ≤ height * width := Nat.mul_le_mul_right width hy
  calc index width p < p.2 * width + width := Nat.add_lt_add_left hx _
    _ = (p.2 + 1) * width := by ring
    _ ≤ width * height := by rwa [Nat.mul_comm width]

theorem index_inj {width : ℕ} {p q : ℕ × ℕ} (hp : p.1 < width) (hq : q.1 < width)
    (h : index width p = index width q) : p = q := by
  have hw : 0 < width := by omega
  have hx : p.1 = q.1 := by
    have := congrArg (· % width) h
    simpa [index, Nat.mul_add_mod', Nat.mod_eq_of_lt, hp, hq] using this
  have hy : p.2 = q.2 := by
    unfold index at h
    rw [hx, Nat.add_right_cancel_iff] at h
    exact Nat.eq_of_mul_eq_mul_right hw h
  exact Prod.ext hx hy

def setPixel (d : MockDisplay) (p : ℕ × ℕ) (level : UInt8) : MockDisplay :=
  if p.1 ≥ d.bounds.width ∨ p.2 ≥ d.bounds.height then d
  else { d with
    pixels := d.pixels.setIfInBounds (index d.bounds.width p) level
    size_pixels := by rw [Array.size_setIfInBounds, d.size_pixels] }

def getPixel (d : MockDisplay) (p : ℕ × ℕ) : UInt8 :=
  if p.1 ≥ d.bounds.width ∨ p.2 ≥ d.bounds.height then 0xFF
  else d.pixels.getD (index d.bounds.width p) 0

def update (d : MockDisplay) (region : UpdateRegion) : MockDisplay :=
  { d with updates := d.updates ++ [region] }

instance : IDisplay MockDisplay where
  bounds := MockDisplay.bounds
  setPixel := setPixel
  getPixel := getPixel
  update := update
  bounds_setPixel d p level := by unfold setPixel; split_ifs <;> rfl
  bounds_update d region := rfl

instance : LawfulDisplay MockDisplay where
  getPixel_setPixel_ne d p q level hne := by
    show (d.setPixel p level).getPixel q = d.getPixel q
    unfold setPixel
    split_ifs with hp
    · rfl
    · by_cases hq : q.1 ≥ d.bounds.width ∨ q.2 ≥ d.bounds.height
      · rw [getPixel, if_pos hq, getPixel, if_pos hq]
      · have hidx : index d.bounds.width p ≠ index d.bounds.width q := fun h =>
          hne (index_inj (by omega) (by omega) h).symm
        rw [getPixel, if_neg hq, getPixel, if_neg hq]
        simp [Array.getD_eq_getD_getElem?, Array.getElem?_setIfInBounds_ne hidx]
  getPixel_setPixel_back d d' p hb := by
    show (d'.setPixel p (d.getPixel p)).getPixel p = d.getPixel p
    have hb' : d'.bounds = d.bounds := hb
    unfold setPixel
    split_ifs with hp
    · rw [getPixel, if_pos hp, getPixel, if_pos (hb' ▸ hp)]
    · have hlt : index d'.bounds.width p < d'.pixels.size := by
        rw [d'.size_pixels]
        exact index_lt (by omega) (by omega)
      rw [getPixel, if_neg hp]
      simp [Array.getD_eq_getD_getElem?, hlt]
  getPixel_update d region p := rfl

end MockDisplay
end Launchpad
