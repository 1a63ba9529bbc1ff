/-
# The framebuffer of the device and its memory

`open_framebuffer` and `clear` of `src/hal/kindle_display.cpp`. The size of the
memory is that of `width * height` pixels of the depth the kernel reports, and the
byte of a pixel is found as if every pixel had four bits and every row its own
bytes. The two agree exactly when the bytes of a row are not more than its pixels'
bits (`byteIndex_lt_iff`).

`clear` and the fallback of `open_framebuffer` write gray levels into the nibbles
as they are, `set_pixel` and `get_pixel` upside down: a cleared screen is read as
the negative of what was asked for, but for eight levels in the middle
(`clear_eq_iff`), and the fallback is read as black (`Fallback.getPixel`).
-/
import Launchpad.KindleDisplay

namespace Launchpad

/-- What is used of `fb_var_screeninfo`. -/
structure VarScreenInfo where
  xres : UInt32
  yres : UInt32
  bitsPerPixel : UInt32
  deriving DecidableEq

/-- What the system answers: whether the device opens, `FBIOGET_VSCREENINFO`,
whether it is mapped, and the bytes there. -/
structure FbDevice where
  opens : Bool
  screenInfo : Option VarScreenInfo
  maps : Bool
  content : ℕ → UInt8

/-- The bounds and the handle of a `KindleDisplay`; `memory` has `handle_.size` bytes. -/
structure Framebuffer where
  bounds : DisplayBounds
  memory : Array UInt8
  isMmapped : Bool

namespace Framebuffer

/-- The geometry that is accepted, or else the default one. -/
def boundsOf (dev : FbDevice) : DisplayBounds :=
  match dev.opens, dev.screenInfo with
  | true, some v =>
    if v.xres > 0 ∧ v.yres > 0 then ⟨v.xres.toNat, v.yres.toNat, v.bitsPerPixel.toUInt8⟩
    else ⟨600, 800, 4⟩
  | _, _ => ⟨600, 800, 4⟩

def sizeOf (b : DisplayBounds) : ℕ := mul32 (mul32 b.width b.height) b.bitsPerPixel.toNat / 8

def openFramebuffer (dev : FbDevice) : Framebuffer :=
  let bounds := boundsOf dev
  if dev.opens ∧ dev.maps then
    { bounds, memory := Array.ofFn fun i : Fin (sizeOf bounds) => dev.content i, isMmapped := true }
  else { bounds, memory := Array.replicate (sizeOf bounds) 0xFF, isMmapped := false }

/-- The byte `set_pixel` and `get_pixel` compute for a pixel. -/
def byteIndex (b : DisplayBounds) (p : ℕ × ℕ) : ℕ :=
  add32 (mul32 p.2 (add32 b.width 1 / 2)) (p.1 / 2)

theorem byteIndex_kindleDisplay (d : KindleDisplay) (p : ℕ × ℕ) :
    d.byteIndex p = byteIndex d.bounds p := rfl

theorem bounds_openFramebuffer (dev : FbDevice) : (openFramebuffer dev).bounds = boundsOf dev := by
  unfold openFramebuffer
  simp only
  split_ifs <;> rfl

theorem size_openFramebuffer (dev : FbDevice) :
    (openFramebuffer dev).memory.size = sizeOf (boundsOf dev) := by
  unfold openFramebuffer
  simp only
  split_ifs
  · exact Array.size_ofFn
  · exact Array.size_replicate

theorem boundsOf_some {dev : FbDevice} {v : VarScreenInfo} (hopens : dev.opens = true)
    (hv : dev.screenInfo = some v) (hx : 0 < v.xres) (hy : 0 < v.yres) :
    boundsOf dev = ⟨v.xres.toNat, v.yres.toNat, v.bitsPerPixel.toUInt8⟩ := by
  simp only [boundsOf, hopens, hv]
  exact if_pos ⟨hx, hy⟩

/-! ### Bytes of a row and bits of its pixels -/

section Geometry

variable {b : DisplayBounds} (hx : 0 < b.width) (hy : 0 < b.height)
  (hprod : b.width * b.height < 4294967296)
  (hbits : b.width * b.height * b.bitsPerPixel.toNat < 4294967296)

include hprod hbits in
theorem sizeOf_eq : sizeOf b = b.width * b.height * b.bitsPerPixel.toNat / 8 := by
  rw [sizeOf, mul32, mul32, Nat.mod_eq_of_lt hprod, Nat.mod_eq_of_lt hbits]

include hx hprod in
/-- No index on the screen overflows, unless adding one to the width does. -/
theorem byteIndex_eq (hwrap : b.width + 1 < 4294967296) {x y : ℕ} (hxw : x < b.width)
    (hyh : y < b.height) : byteIndex b (x, y) = y * ((b.width + 1) / 2) + x / 2 := by
  have hstride : add32 b.width 1 / 2 = (b.width + 1) / 2 := by rw [add32, Nat.mod_eq_of_lt hwrap]
  have hrow : (y + 1) * ((b.width + 1) / 2) ≤ b.width * b.height := by
    rw [Nat.mul_comm b.width]
    exact Nat.mul_le_mul hyh (by omega)
  rw [Nat.succ_mul] at hrow
  rw [byteIndex, hstride]
  show (y * ((b.width + 1) / 2) % 4294967296 + x / 2) % 4294967296 = _
  omega

include hx hy hprod in
/-- The last pixel has the last byte of the rows. -/
theorem forall_byteIndex_lt_iff (hwrap : b.width + 1 < 4294967296) (n : ℕ) :
    (∀ x y, x < b.width → y < b.height → byteIndex b (x, y) < n) ↔
      b.height * ((b.width + 1) / 2) ≤ n := by
  refine ⟨fun h => ?_, fun h x y hxw hyh => ?_⟩
  · have hlast := h (b.width - 1) (b.height - 1) (by omega) (by omega)
    rw [byteIndex_eq hx hprod hwrap (by omega) (by omega)] at hlast
    obtain ⟨k, hk⟩ : ∃ k, b.height = k + 1 := ⟨b.height - 1, by omega⟩
    rw [hk, Nat.add_sub_cancel] at hlast
    rw [hk, Nat.succ_mul]
    omega
  · have hrow : (y + 1) * ((b.width + 1) / 2) ≤ b.height * ((b.width + 1) / 2) :=
      Nat.mul_le_mul_right _ hyh
    rw [byteIndex_eq hx hprod hwrap hxw hyh]
    rw [Nat.succ_mul] at hrow
    omega

/-- The width is the largest `uint32_t`: there is one row, of a bit a pixel. -/
theorem byteIndex_wrapped (hw : b.width = 4294967295) (hy : 0 < b.height)
    (hbits : b.width * b.height * b.bitsPerPixel.toNat < 4294967296) :
    ¬ byteIndex b (4294967294, 0) < b.width * b.height * b.bitsPerPixel.toNat / 8 ∧
      ¬ 8 * ((b.width + 1) / 2) ≤ b.width * b.bitsPerPixel.toNat := by
  generalize b.bitsPerPixel.toNat = bpp at hbits ⊢
  have hindex : byteIndex b (4294967294, 0) = 2147483647 := by
    rw [byteIndex, mul32, Nat.zero_mul]
    rfl
  have hone : b.width * bpp ≤ b.width * b.height * bpp :=
    Nat.mul_le_mul_right _ (Nat.le_mul_of_pos_right _ hy)
  rw [hindex]
  rw [hw] at hone hbits ⊢
  omega

include hx hy hprod hbits in
/-- Every byte of the screen is in a memory of that size exactly when a row has
no more bytes than its pixels have bits. -/
theorem forall_byteIndex_lt_sizeOf_iff (hw : b.width < 4294967296) :
    (∀ x y, x < b.width → y < b.height → byteIndex b (x, y) < sizeOf b) ↔
      8 * ((b.width + 1) / 2) ≤ b.width * b.bitsPerPixel.toNat := by
  rw [sizeOf_eq hprod hbits]
  by_cases hwrap : b.width + 1 < 4294967296
  · rw [forall_byteIndex_lt_iff hx hy hprod hwrap, Nat.le_div_iff_mul_le (by decide)]
    have hcomm : b.height * ((b.width + 1) / 2) * 8 ≤ b.width * b.height * b.bitsPerPixel.toNat ↔
        b.height * (8 * ((b.width + 1) / 2)) ≤ b.height * (b.width * b.bitsPerPixel.toNat) := by
      rw [show b.height * ((b.width + 1) / 2) * 8 = b.height * (8 * ((b.width + 1) / 2)) by ring,
        show b.width * b.height * b.bitsPerPixel.toNat =
          b.height * (b.width * b.bitsPerPixel.toNat) by ring]
    rw [hcomm]
    exact Nat.mul_le_mul_left_iff hy
  · have hmax : b.width = 4294967295 := by omega
    obtain ⟨hindex, hrow⟩ := byteIndex_wrapped hmax hy hbits
    exact iff_of_false (fun h => hindex (h 4294967294 0 (by omega) hy)) hrow

end Geometry

/-- **When the framebuffer is large enough.** For a geometry the kernel reports,
whether the device is mapped or not, every byte of the screen is in the memory
exactly when a row of the screen, two pixels a byte, has no more bits than its
pixels have at the depth reported. -/
theorem byteIndex_lt_iff (dev : FbDevice) (v : VarScreenInfo) (hopens : dev.opens = true)
    (hv : dev.screenInfo = some v) (hx : 0 < v.xres) (hy : 0 < v.yres)
    (hprod : v.xres.toNat * v.yres.toNat < 4294967296)
    (hbits : v.xres.toNat * v.yres.toNat * (v.bitsPerPixel.toNat % 256) < 4294967296) :
    (∀ x y, x < v.xres.toNat → y < v.yres.toNat →
      byteIndex (openFramebuffer dev).bounds (x, y) < (openFramebuffer dev).memory.size) ↔
      8 * ((v.xres.toNat + 1) / 2) ≤ v.xres.toNat * (v.bitsPerPixel.toNat % 256) := by
  have hbpp : v.bitsPerPixel.toUInt8.toNat = v.bitsPerPixel.toNat % 256 := rfl
  rw [bounds_openFramebuffer, size_openFramebuffer, boundsOf_some hopens hv hx hy]
  rw [← hbpp] at hbits ⊢
  exact forall_byteIndex_lt_sizeOf_iff (b := ⟨v.xres.toNat, v.yres.toNat, v.bitsPerPixel.toUInt8⟩)
    (UInt32.lt_iff_toNat_lt.mp hx) (UInt32.lt_iff_toNat_lt.mp hy) hprod hbits v.xres.toNat_lt

/-- The last pixel of the stock screen of 600 by 800 pixels at four bits. -/
theorem byteIndex_lt_stock :
    byteIndex (openFramebuffer ⟨true, some ⟨600, 800, 4⟩, false, fun _ => 0⟩).bounds (599, 799) <
      (openFramebuffer ⟨true, some ⟨600, 800, 4⟩, false, fun _ => 0⟩).memory.size :=
  (byteIndex_lt_iff ⟨true, some ⟨600, 800, 4⟩, false, fun _ => 0⟩ ⟨600, 800, 4⟩ rfl rfl (by decide)
    (by decide) (by decide) (by decide)).mpr (by decide) 599 799 (by decide) (by decide)

/-- A screen of 601 by 800 pixels at four bits: its last pixel has no byte, in the
mapped memory and in the fallback. -/
theorem not_byteIndex_lt_odd :
    ¬ byteIndex (openFramebuffer ⟨true, some ⟨601, 800, 4⟩, true, fun _ => 0⟩).bounds (600, 799) <
      (openFramebuffer ⟨true, some ⟨601, 800, 4⟩, true, fun _ => 0⟩).memory.size ∧
    ¬ byteIndex (openFramebuffer ⟨true, some ⟨601, 800, 4⟩, false, fun _ => 0⟩).bounds (600, 799) <
      (openFramebuffer ⟨true, some ⟨601, 800, 4⟩, false, fun _ => 0⟩).memory.size := by
  rw [bounds_openFramebuffer, size_openFramebuffer, bounds_openFramebuffer, size_openFramebuffer]
  decide

end Framebuffer

/-! ### Clearing the screen -/

open StatusBar (regionPixels mem_regionPixels)

/-- Setting every pixel of the screen, row by row. -/
def fillScreen {δ : Type*} [IDisplay δ] (d : δ) (level : UInt8) : δ :=
  (regionPixels { width := (bounds d).width, height := (bounds d).height }).foldl
    (fun d p => setPixel d p level) d

theorem mem_screen {b : DisplayBounds} {p : ℕ × ℕ} :
    p ∈ regionPixels { width := b.width, height := b.height } ↔ p.1 < b.width ∧ p.2 < b.height := by
  rw [mem_regionPixels]
  simp [and_comm]

/-- A filled screen reads as what every pixel of it reads after it was set. -/
theorem getPixel_fillScreen_of {δ : Type*} [IDisplay δ] [LawfulDisplay δ] {d : δ} {level w : UInt8}
    (hsame : ∀ (s : δ) (p : ℕ × ℕ), bounds s = bounds d → p.1 < (bounds d).width →
      p.2 < (bounds d).height → getPixel (setPixel s p level) p = w)
    {p : ℕ × ℕ} (hx : p.1 < (bounds d).width) (hy : p.2 < (bounds d).height) :
    getPixel (fillScreen d level) p = w := by
  refine (Cells.get_fill (C := fun s => bounds s = bounds d) ?_ ?_ _ ?_ d rfl p).1
    (mem_screen.mpr ⟨hx, hy⟩)
  · exact fun s a hs => (IDisplay.bounds_setPixel s a level).trans hs
  · exact fun s a b hne => getPixel_setPixel_ne s a b level hne
  · intro s a ha hs
    obtain ⟨hax, hay⟩ := mem_screen.mp ha
    exact hsame s a hs hax hay

namespace MockDisplay

def clear (d : MockDisplay) (color : UInt8) : MockDisplay :=
  { d with
    pixels := Array.replicate d.pixels.size color
    size_pixels := by rw [Array.size_replicate]; exact d.size_pixels }

theorem index_lt_size {d : MockDisplay} {p : ℕ × ℕ} (hx : p.1 < d.bounds.width)
    (hy : p.2 < d.bounds.height) : index d.bounds.width p < d.pixels.size := by
  rw [d.size_pixels]
  exact index_lt hx hy

theorem getPixel_setPixel {d : MockDisplay} {p : ℕ × ℕ} (hx : p.1 < d.bounds.width)
    (hy : p.2 < d.bounds.height) (level : UInt8) : (d.setPixel p level).getPixel p = level := by
  have hin : ¬ (p.1 ≥ d.bounds.width ∨ p.2 ≥ d.bounds.height) := by omega
  have hlt := index_lt_size hx hy
  rw [setPixel, if_neg hin, getPixel, if_neg hin]
  simp [Array.getD_eq_getD_getElem?, hlt]

/-- On the display of the tests, clearing is setting every pixel. -/
theorem getPixel_clear (d : MockDisplay) (color : UInt8) {p : ℕ × ℕ} (hx : p.1 < d.bounds.width)
    (hy : p.2 < d.bounds.height) :
    (d.clear color).getPixel p = (fillScreen d color).getPixel p := by
  have hin : ¬ (p.1 ≥ d.bounds.width ∨ p.2 ≥ d.bounds.height) := by omega
  have hlt := index_lt_size hx hy
  have hclear : (d.clear color).getPixel p = color := by
    rw [getPixel, clear, if_neg hin]
    simp [Array.getD_eq_getD_getElem?, hlt]
  have hfill : (fillScreen d color).getPixel p = color := by
    refine getPixel_fillScreen_of (d := d) (fun s a hs hax hay => ?_) hx hy
    have hs' : s.bounds = d.bounds := hs
    exact getPixel_setPixel (hs' ▸ hax) (hs' ▸ hay) color
  exact hclear.trans hfill.symm

end MockDisplay

namespace KindleDisplay

/-- Every byte gets the high nibble of the colour twice. -/
def clear (d : KindleDisplay) (color : UInt8) : KindleDisplay :=
  let nibble := color >>> (4 : UInt8)
  let packed := (nibble <<< (4 : UInt8)) ||| nibble
  { d with
    memory := Array.replicate d.memory.size packed
    size_lt := by rw [Array.size_replicate]; exact d.size_lt
    fits := by rw [Array.size_replicate]; exact d.fits }

variable {d : KindleDisplay}

/-- A memory of one byte has its halves at every pixel. -/
theorem getPixel_replicate {byte n : UInt8} (hmemory : d.memory = Array.replicate d.memory.size byte)
    (hhigh : byte >>> (4 : UInt8) = n) (hlow : byte &&& (0x0F : UInt8) = n) {p : ℕ × ℕ}
    (hx : p.1 < d.bounds.width) (hy : p.2 < d.bounds.height) : d.getPixel p = levelOf n := by
  obtain ⟨-, -, hlt⟩ := byteIndex_eq hx hy
  have hin : ¬ (p.1 ≥ d.bounds.width ∨ p.2 ≥ d.bounds.height) := by omega
  have hbyte : d.memory.getD (d.position p / 2) 0 = byte := by
    rw [hmemory, Array.getD_eq_getD_getElem?]
    simp [hlt]
  rw [getPixel_eq, if_neg hin, nibbleAt, hbyte, hhigh, hlow, ite_self]

/-- After `clear` a pixel is read as the high nibble of the colour, upside down. -/
theorem getPixel_clear (d : KindleDisplay) (color : UInt8) {p : ℕ × ℕ} (hx : p.1 < d.bounds.width)
    (hy : p.2 < d.bounds.height) : (d.clear color).getPixel p = levelOf (color >>> (4 : UInt8)) := by
  have hlt : color >>> (4 : UInt8) < 16 := Nibble.high_lt color
  have hpacked : (color >>> (4 : UInt8)) <<< (4 : UInt8) ||| color >>> (4 : UInt8) =
      (color >>> (4 : UInt8) &&& (0x0F : UInt8)) ||| (color >>> (4 : UInt8)) <<< (4 : UInt8) := by
    rw [UInt8.or_comm, Nibble.and_eq_self hlt]
  have hmemory : (d.clear color).memory = Array.replicate (d.clear color).memory.size
      ((color >>> (4 : UInt8)) <<< (4 : UInt8) ||| color >>> (4 : UInt8)) := by
    simp only [clear, Array.size_replicate]
  refine getPixel_replicate hmemory ?_ ?_ hx hy
  · rw [hpacked, Nibble.high_setHigh, Nibble.and_eq_self hlt]
  · rw [hpacked, Nibble.low_setHigh, Nibble.and_eq_self hlt]

theorem getPixel_fillScreen (d : KindleDisplay) (level : UInt8) {p : ℕ × ℕ}
    (hx : p.1 < d.bounds.width) (hy : p.2 < d.bounds.height) :
    (fillScreen d level).getPixel p = levelOf (quantise level) := by
  refine getPixel_fillScreen_of (d := d) (fun s a hs hax hay => ?_) hx hy
  have hs' : s.bounds = d.bounds := hs
  exact getPixel_setPixel (hs' ▸ hax) (hs' ▸ hay) level

/-- The levels that `clear` and `set_pixel` keep as the same nibble. -/
theorem shift_eq_quantise_iff (level : UInt8) :
    level >>> (4 : UInt8) = quantise level ↔ 0x78 ≤ level ∧ level ≤ 0x7F := by
  have hlevel := level.toNat_lt
  have hhigh : (level >>> (4 : UInt8)).toNat = level.toNat / 16 := by
    simp [Nat.shiftRight_eq_div_pow]
  have hquantise : (quantise level).toNat = (255 - level.toNat) / 17 := by
    simp only [quantise, UInt8.toNat_div, UInt8.toNat_sub, UInt8.reduceToNat]
    omega
  rw [← UInt8.toNat_inj, hhigh, hquantise, UInt8.le_iff_toNat_le, UInt8.le_iff_toNat_le]
  simp only [UInt8.reduceToNat]
  omega

theorem levelOf_inj {n k : UInt8} (hn : n < 16) (hk : k < 16) : levelOf n = levelOf k ↔ n = k :=
  ⟨fun h => by rw [← quantise_levelOf hn, h, quantise_levelOf hk], congrArg levelOf⟩

/-- A cleared screen is read as a filled one only if its colour is in the middle. -/
theorem clear_eq_iff (d : KindleDisplay) (color : UInt8) :
    (∀ p, p.1 < d.bounds.width → p.2 < d.bounds.height →
      (d.clear color).getPixel p = (fillScreen d color).getPixel p) ↔
      d.bounds.width = 0 ∨ d.bounds.height = 0 ∨ 0x78 ≤ color ∧ color ≤ 0x7F := by
  have hpixel : ∀ p, p.1 < d.bounds.width → p.2 < d.bounds.height →
      ((d.clear color).getPixel p = (fillScreen d color).getPixel p ↔
        0x78 ≤ color ∧ color ≤ 0x7F) := by
    intro p hx hy
    rw [getPixel_clear d color hx hy, getPixel_fillScreen d color hx hy,
      levelOf_inj (Nibble.high_lt color) (quantise_lt color), shift_eq_quantise_iff]
  refine ⟨fun h => ?_, fun h p hx hy => ?_⟩
  · by_cases hw : d.bounds.width = 0
    · exact .inl hw
    · by_cases hh : d.bounds.height = 0
      · exact .inr (.inl hh)
      · have hx : (0, 0).1 < d.bounds.width := Nat.pos_of_ne_zero hw
        have hy : (0, 0).2 < d.bounds.height := Nat.pos_of_ne_zero hh
        exact .inr (.inr ((hpixel (0, 0) hx hy).mp (h (0, 0) hx hy)))
  · rcases h with hw | hh | hcolor
    · omega
    · omega
    · exact (hpixel p hx hy).mpr hcolor

end KindleDisplay

/-! ### The fallback -/

namespace Framebuffer

/-- A display without a mapped device. -/
structure Fallback (dev : FbDevice) (d : KindleDisplay) : Prop where
  unmapped : (openFramebuffer dev).isMmapped = false
  bounds : d.bounds = (openFramebuffer dev).bounds
  memory : d.memory = (openFramebuffer dev).memory

theorem boundsOf_pos (dev : FbDevice) : 0 < (boundsOf dev).width ∧ 0 < (boundsOf dev).height := by
  unfold boundsOf
  split
  · split_ifs with hpos
    · exact ⟨UInt32.lt_iff_toNat_lt.mp hpos.1, UInt32.lt_iff_toNat_lt.mp hpos.2⟩
    · decide
  · decide

/-- The fallback is filled with ones, which are read as black. -/
theorem Fallback.getPixel {dev : FbDevice} {d : KindleDisplay} (h : Fallback dev d) {p : ℕ × ℕ}
    (hx : p.1 < d.bounds.width) (hy : p.2 < d.bounds.height) : d.getPixel p = 0x00 := by
  have hmemory : d.memory = Array.replicate d.memory.size 0xFF := by
    have hunmapped := h.unmapped
    rw [h.memory, size_openFramebuffer]
    unfold openFramebuffer at hunmapped ⊢
    simp only at hunmapped ⊢
    split_ifs at hunmapped ⊢
    rfl
  exact KindleDisplay.getPixel_replicate (n := 0x0F) hmemory rfl rfl hx hy

/-- The display of a daemon that finds no framebuffer. -/
def stock : KindleDisplay where
  bounds := ⟨600, 800, 4⟩
  memory := Array.replicate 240000 0xFF
  size_lt := by rw [Array.size_replicate]; decide
  fits := by rw [Array.size_replicate]; decide

theorem fallback_stock : Fallback ⟨false, none, false, fun _ => 0⟩ stock :=
  ⟨rfl, rfl, congrArg (Array.replicate · 0xFF) (by decide)⟩

end Framebuffer
end Launchpad
