/-
# The display of the device

`KindleDisplay` of `src/hal/kindle_display.cpp`: a framebuffer of four bits a
pixel, two pixels a byte. A level is kept as one of sixteen, so what is written
is not what is read; but a level that was read is kept (`quantise_levelOf`), which
is what the status bar relies on.

The memory is its nibbles (`memory_eq`), of which the pixel at `p` has the one at
`position p`, and setting a pixel changes that one (`nibbleAt_setPixel`). The
nibble that pads a row of odd width is no pixel's.
-/
import Launchpad.StatusBar
import Mathlib.Tactic.IntervalCases

namespace Launchpad

/-! ### Nibbles of a byte -/

namespace Nibble

/-- Written high, a nibble leaves the low one. -/
theorem low_setHigh (b n : UInt8) :
    ((b &&& (0x0F : UInt8)) ||| (n <<< (4 : UInt8))) &&& (0x0F : UInt8) = b &&& (0x0F : UInt8) := by
  apply UInt8.eq_of_toBitVec_eq
  ext i hi
  interval_cases i <;> simp

theorem high_setHigh (b n : UInt8) :
    ((b &&& (0x0F : UInt8)) ||| (n <<< (4 : UInt8))) >>> (4 : UInt8) = n &&& (0x0F : UInt8) := by
  apply UInt8.eq_of_toBitVec_eq
  ext i hi
  interval_cases i <;> simp

theorem low_setLow (b n : UInt8) :
    ((b &&& (0xF0 : UInt8)) ||| (n &&& (0x0F : UInt8))) &&& (0x0F : UInt8) = n &&& (0x0F : UInt8) := by
  apply UInt8.eq_of_toBitVec_eq
  ext i hi
  interval_cases i <;> simp

/-- Written low, a nibble leaves the high one. -/
theorem high_setLow (b n : UInt8) :
    ((b &&& (0xF0 : UInt8)) ||| (n &&& (0x0F : UInt8))) >>> (4 : UInt8) = b >>> (4 : UInt8) := by
  apply UInt8.eq_of_toBitVec_eq
  ext i hi
  interval_cases i <;> simp

/-- A byte is its two nibbles. -/
theorem byte_eq (b : UInt8) :
    b = ((b >>> (4 : UInt8)) <<< (4 : UInt8)) ||| (b &&& (0x0F : UInt8)) := by
  apply UInt8.eq_of_toBitVec_eq
  ext i hi
  interval_cases i <;> simp

theorem and_eq_self {n : UInt8} (h : n < 16) : n &&& (0x0F : UInt8) = n := by
  have hlt : n.toNat < 16 := by simpa [UInt8.lt_iff_toNat_lt] using h
  apply UInt8.toNat_inj.mp
  rw [UInt8.toNat_and]
  exact (Nat.and_two_pow_sub_one_eq_mod n.toNat 4).trans (Nat.mod_eq_of_lt hlt)

theorem low_lt (b : UInt8) : b &&& (0x0F : UInt8) < 16 := by
  rw [UInt8.lt_iff_toNat_lt, UInt8.toNat_and]
  exact (Nat.and_two_pow_sub_one_eq_mod b.toNat 4).trans_lt (Nat.mod_lt _ (by decide))

theorem high_lt (b : UInt8) : b >>> (4 : UInt8) < 16 := by
  have hb := b.toNat_lt
  rw [UInt8.lt_iff_toNat_lt]
  simp [Nat.shiftRight_eq_div_pow]
  omega

end Nibble

/-! ### Levels -/

/-- The nibble a level is kept as. -/
def quantise (level : UInt8) : UInt8 := (255 - level) / 17

/-- The level a nibble is read as. -/
def levelOf (nibble : UInt8) : UInt8 := 255 - nibble * 17

theorem quantise_lt (level : UInt8) : quantise level < 16 := by
  have hlt := (255 - level).toNat_lt
  rw [UInt8.lt_iff_toNat_lt, quantise, UInt8.toNat_div]
  show (255 - level).toNat / 17 < 16
  omega

/-- A level that was read is kept. -/
theorem quantise_levelOf {n : UInt8} (h : n < 16) : quantise (levelOf n) = n := by
  have hlt : n.toNat < 16 := by simpa [UInt8.lt_iff_toNat_lt] using h
  apply UInt8.toNat_inj.mp
  simp only [quantise, levelOf, UInt8.toNat_div, UInt8.toNat_sub, UInt8.toNat_mul,
    UInt8.reduceToNat]
  omega

/-! ### The framebuffer -/

/-- `KindleDisplay` with the memory of its handle, which the constructor gives a
size of `uint32_t` bits; here it holds every pixel. -/
structure KindleDisplay where
  bounds : DisplayBounds := ⟨600, 800, 4⟩
  memory : Array UInt8
  size_lt : memory.size < 536870912
  fits : (bounds.width + 1) / 2 * bounds.height ≤ memory.size

namespace KindleDisplay

variable (d : KindleDisplay)

def stride : ℕ := add32 d.bounds.width 1 / 2

/-- The byte of a pixel. -/
def byteIndex (p : ℕ × ℕ) : ℕ := add32 (p.2 * d.stride % 4294967296) (p.1 / 2)

def setPixel (p : ℕ × ℕ) (level : UInt8) : KindleDisplay :=
  if p.1 ≥ d.bounds.width ∨ p.2 ≥ d.bounds.height then d
  else
    let byte := d.memory.getD (d.byteIndex p) 0
    let nibble := quantise level
    { d with
      memory := d.memory.setIfInBounds (d.byteIndex p)
        (if p.1 % 2 = 0 then (byte &&& (0x0F : UInt8)) ||| (nibble <<< (4 : UInt8))
        else (byte &&& (0xF0 : UInt8)) ||| (nibble &&& (0x0F : UInt8)))
      size_lt := by rw [Array.size_setIfInBounds]; exact d.size_lt
      fits := by rw [Array.size_setIfInBounds]; exact d.fits }

def getPixel (p : ℕ × ℕ) : UInt8 :=
  if p.1 ≥ d.bounds.width ∨ p.2 ≥ d.bounds.height then 0xFF
  else
    let raw := d.memory.getD (d.byteIndex p) 0
    levelOf (if p.1 % 2 = 0 then raw >>> (4 : UInt8) else raw &&& (0x0F : UInt8))

/-- The nibbles of the memory: the high one of a byte, then the low one. -/
def nibbleAt (j : ℕ) : UInt8 :=
  if j % 2 = 0 then d.memory.getD (j / 2) 0 >>> (4 : UInt8)
  else d.memory.getD (j / 2) 0 &&& (0x0F : UInt8)

/-- The nibble of a pixel; rows start on a byte. -/
def position (p : ℕ × ℕ) : ℕ := MockDisplay.index (2 * ((d.bounds.width + 1) / 2)) p

variable {d}

/-- No index of a pixel on the screen overflows. -/
theorem byteIndex_eq {p : ℕ × ℕ} (hx : p.1 < d.bounds.width) (hy : p.2 < d.bounds.height) :
    d.byteIndex p = d.position p / 2 ∧ p.1 % 2 = d.position p % 2 ∧
      d.position p / 2 < d.memory.size := by
  have hfits := d.fits
  have hsize := d.size_lt
  have hrow : (d.bounds.width + 1) / 2 * (p.2 + 1) ≤ (d.bounds.width + 1) / 2 * d.bounds.height :=
    Nat.mul_le_mul_left _ hy
  have hposition : d.position p = 2 * ((d.bounds.width + 1) / 2 * p.2) + p.1 := by
    simp only [position, MockDisplay.index]
    ring
  have hone : (d.bounds.width + 1) / 2 ≤ (d.bounds.width + 1) / 2 * (p.2 + 1) :=
    Nat.le_mul_of_pos_right _ (Nat.succ_pos _)
  have hstride : d.stride = (d.bounds.width + 1) / 2 := by
    simp only [stride, add32]
    omega
  rw [Nat.mul_succ] at hrow
  have hbyte : d.byteIndex p = (d.bounds.width + 1) / 2 * p.2 + p.1 / 2 := by
    rw [byteIndex, hstride, Nat.mul_comm p.2, add32]
    omega
  rw [hposition, hbyte]
  omega

theorem getPixel_eq (p : ℕ × ℕ) :
    d.getPixel p = if p.1 ≥ d.bounds.width ∨ p.2 ≥ d.bounds.height then 0xFF
      else levelOf (d.nibbleAt (d.position p)) := by
  unfold getPixel
  by_cases h : p.1 ≥ d.bounds.width ∨ p.2 ≥ d.bounds.height
  · rw [if_pos h, if_pos h]
  · obtain ⟨hbyte, hparity, _⟩ := byteIndex_eq (d := d) (p := p) (by omega) (by omega)
    rw [if_neg h, if_neg h]
    simp only [nibbleAt, hbyte, hparity]

theorem nibbleAt_lt (j : ℕ) : d.nibbleAt j < 16 := by
  unfold nibbleAt
  split_ifs
  · exact Nibble.high_lt _
  · exact Nibble.low_lt _

theorem getD_set {memory : Array UInt8} {i : ℕ} (hi : i < memory.size) (v : UInt8) (j : ℕ) :
    (memory.setIfInBounds i v).getD j 0 = if j = i then v else memory.getD j 0 := by
  by_cases hj : j = i
  · rw [if_pos hj, hj]
    simp [Array.getD_eq_getD_getElem?, hi]
  · rw [if_neg hj]
    simp [Array.getD_eq_getD_getElem?, Array.getElem?_setIfInBounds_ne (Ne.symm hj)]

/-- Setting a pixel changes its nibble, and no other. -/
theorem nibbleAt_setPixel {p : ℕ × ℕ} (hx : p.1 < d.bounds.width) (hy : p.2 < d.bounds.height)
    (level : UInt8) (j : ℕ) :
    (d.setPixel p level).nibbleAt j = if j = d.position p then quantise level else d.nibbleAt j := by
  obtain ⟨hbyte, hparity, hlt⟩ := byteIndex_eq hx hy
  have hin : ¬ (p.1 ≥ d.bounds.width ∨ p.2 ≥ d.bounds.height) := by omega
  simp only [setPixel, if_neg hin, nibbleAt, hbyte, hparity, getD_set hlt]
  by_cases hj : j / 2 = d.position p / 2
  · simp only [if_pos hj]
    by_cases heven : d.position p % 2 = 0
    · rw [if_pos heven]
      by_cases hj' : j % 2 = 0
      · rw [if_pos hj', if_pos (by omega), Nibble.high_setHigh, Nibble.and_eq_self (quantise_lt level)]
      · rw [if_neg hj', if_neg (by omega), if_neg hj', Nibble.low_setHigh, hj]
    · rw [if_neg heven]
      by_cases hj' : j % 2 = 0
      · rw [if_pos hj', if_neg (by omega), if_pos hj', Nibble.high_setLow, hj]
      · rw [if_neg hj', if_pos (by omega), Nibble.low_setLow, Nibble.and_eq_self (quantise_lt level)]
  · rw [if_neg hj, if_neg (fun h => hj (congrArg (· / 2) h))]

theorem setPixel_outside {p : ℕ × ℕ} (h : p.1 ≥ d.bounds.width ∨ p.2 ≥ d.bounds.height)
    (level : UInt8) : d.setPixel p level = d := if_pos h

/-- The memory is its nibbles. -/
theorem memory_eq {d d' : KindleDisplay} (hsize : d'.memory.size = d.memory.size)
    (h : ∀ j, d'.nibbleAt j = d.nibbleAt j) : d'.memory = d.memory := by
  refine Array.ext hsize fun i hi' hi => ?_
  have hbyte : d'.memory.getD i 0 = d.memory.getD i 0 := by
    have hhigh := h (2 * i)
    have hlow := h (2 * i + 1)
    simp only [nibbleAt, Nat.mul_mod_right, if_true, Nat.mul_add_mod, one_ne_zero, if_false,
      show 2 * i / 2 = i by omega, show (2 * i + 1) / 2 = i by omega, Nat.one_mod] at hhigh hlow
    rw [Nibble.byte_eq (d'.memory.getD i 0), hhigh, hlow, ← Nibble.byte_eq]
  simpa [Array.getD_eq_getD_getElem?, hi, hi'] using hbyte

/-! ### An array of pixels -/

/-- A refresh of the screen leaves the memory. -/
def update (d : KindleDisplay) (_ : UpdateRegion) : KindleDisplay := d

theorem bounds_setPixel (d : KindleDisplay) (p : ℕ × ℕ) (level : UInt8) :
    (d.setPixel p level).bounds = d.bounds := by
  unfold setPixel
  split_ifs <;> rfl

theorem size_setPixel (d : KindleDisplay) (p : ℕ × ℕ) (level : UInt8) :
    (d.setPixel p level).memory.size = d.memory.size := by
  by_cases h : p.1 ≥ d.bounds.width ∨ p.2 ≥ d.bounds.height
  · rw [setPixel_outside h]
  · rw [setPixel, if_neg h]
    exact Array.size_setIfInBounds

instance : IDisplay KindleDisplay where
  bounds := KindleDisplay.bounds
  setPixel := setPixel
  getPixel := getPixel
  update := update
  bounds_setPixel := bounds_setPixel
  bounds_update _ _ := rfl

theorem position_setPixel (d : KindleDisplay) (p q : ℕ × ℕ) (level : UInt8) :
    (d.setPixel p level).position q = d.position q := by
  rw [position, bounds_setPixel]
  rfl

theorem position_ne {p q : ℕ × ℕ} (hp : p.1 < d.bounds.width) (hq : q.1 < d.bounds.width)
    (hne : q ≠ p) : d.position q ≠ d.position p := fun h =>
  hne (MockDisplay.index_inj (by omega) (by omega) h)

instance : LawfulDisplay KindleDisplay where
  getPixel_setPixel_ne d p q level hne := by
    show (d.setPixel p level).getPixel q = d.getPixel q
    by_cases hp : p.1 ≥ d.bounds.width ∨ p.2 ≥ d.bounds.height
    · rw [setPixel_outside hp]
    · rw [getPixel_eq, getPixel_eq, bounds_setPixel, position_setPixel]
      by_cases hq : q.1 ≥ d.bounds.width ∨ q.2 ≥ d.bounds.height
      · rw [if_pos hq, if_pos hq]
      · rw [if_neg hq, if_neg hq, nibbleAt_setPixel (by omega) (by omega),
          if_neg (position_ne (by omega) (by omega) hne)]
  getPixel_setPixel_back d d' p hb := by
    show (d'.setPixel p (d.getPixel p)).getPixel p = d.getPixel p
    have hb' : d'.bounds = d.bounds := hb
    rw [getPixel_eq, bounds_setPixel, position_setPixel, hb', getPixel_eq]
    by_cases hp : p.1 ≥ d.bounds.width ∨ p.2 ≥ d.bounds.height
    · rw [if_pos hp, if_pos hp]
    · rw [if_neg hp, if_neg hp, nibbleAt_setPixel (by rw [hb']; omega) (by rw [hb']; omega), if_pos rfl,
        quantise_levelOf (nibbleAt_lt _)]
  getPixel_update d region p := rfl

theorem getPixel_setPixel {p : ℕ × ℕ} (hx : p.1 < d.bounds.width) (hy : p.2 < d.bounds.height)
    (level : UInt8) : (d.setPixel p level).getPixel p = levelOf (quantise level) := by
  have hin : ¬ (p.1 ≥ d.bounds.width ∨ p.2 ≥ d.bounds.height) := by omega
  rw [getPixel_eq, bounds_setPixel, position_setPixel, if_neg hin, nibbleAt_setPixel hx hy,
    if_pos rfl]

/-- Writing back what was read changes no byte. -/
theorem memory_setPixel_back (d : KindleDisplay) (p : ℕ × ℕ) :
    (d.setPixel p (d.getPixel p)).memory = d.memory := by
  by_cases h : p.1 ≥ d.bounds.width ∨ p.2 ≥ d.bounds.height
  · rw [setPixel_outside h]
  · refine memory_eq (size_setPixel d p _) fun j => ?_
    rw [nibbleAt_setPixel (by omega) (by omega), getPixel_eq, if_neg h,
      quantise_levelOf (nibbleAt_lt _)]
    split_ifs with hj
    · rw [hj]
    · rfl

/-- **The packed framebuffer is an array.** A pixel that is set is read as its
level, one of sixteen, and every other pixel as before; outside the screen nothing
is written, and writing back what was read changes no byte. -/
theorem packed_array (d : KindleDisplay) (p : ℕ × ℕ) (level : UInt8) :
    (p.1 < d.bounds.width → p.2 < d.bounds.height →
      (d.setPixel p level).getPixel p = levelOf (quantise level)) ∧
    (∀ q, q ≠ p → (d.setPixel p level).getPixel q = d.getPixel q) ∧
    (p.1 ≥ d.bounds.width ∨ p.2 ≥ d.bounds.height → (d.setPixel p level).memory = d.memory) ∧
    (d.setPixel p (d.getPixel p)).memory = d.memory := by
  refine ⟨fun hx hy => getPixel_setPixel hx hy level, fun q hne => ?_, fun h => ?_,
    memory_setPixel_back d p⟩
  · exact getPixel_setPixel_ne d p q level hne
  · rw [setPixel_outside h]

/-- A screen of three pixels by two in four bytes, all black. -/
def small : KindleDisplay where
  bounds := ⟨3, 2, 4⟩
  memory := Array.replicate 4 0xFF
  size_lt := by decide
  fits := by decide

theorem packed_array_small : (small.setPixel (1, 0) 0x80).getPixel (1, 0) = levelOf (quantise 0x80) ∧
    (small.setPixel (1, 0) 0x80).getPixel (0, 0) = small.getPixel (0, 0) ∧
    (small.setPixel (3, 0) 0x80).memory = small.memory := by
  refine ⟨(packed_array small (1, 0) 0x80).1 (by decide) (by decide),
    (packed_array small (1, 0) 0x80).2.1 (0, 0) (by decide), ?_⟩
  exact (packed_array small (3, 0) 0x80).2.2.1 (.inl (by decide))

end KindleDisplay
end Launchpad
