/-
# Screenshots

`ScreenshotWriter` of `src/ui/screenshot_writer.cpp`, as the bytes it writes on a
little-endian host. A pixel is written as the index of its level in a palette
that goes from white to black, as the levels of the framebuffer do, two pixels a
byte, rows from the bottom up.

A reader of such files finds in them the level of every pixel, as one of sixteen
(`writeBmp_decodes`): the headers are a record (`Bytes.field_record`), palette and
rows are parts of one length (`Bytes.getElem?_flatMap`), and a row is its pixels
(`getElem?_rowBuffer`).
-/
import Launchpad.Bmp
import Launchpad.KindleDisplay

namespace Launchpad

open Bytes

namespace ScreenshotWriter

variable {δ : Type*} [IDisplay δ]

/-- The fields of the two headers, of fourteen and of forty bytes, behind the letters. -/
def headerFields (width height stride : ℕ) : List (ℕ × ℕ) :=
  let offset := 14 + 40 + 16 * 4
  let fileSize := add32 offset (mul32 stride height)
  let reserved := 0
  let dibSize := 40
  let planes := 1
  let bpp := 4
  let compression := 0
  let imgSize := mul32 stride height
  let dpi := 2835
  let colors := 16
  [(4, fileSize), (4, reserved), (4, offset), (4, dibSize), (4, width), (4, height), (2, planes),
    (2, bpp), (4, compression), (4, imgSize), (4, dpi), (4, dpi), (4, colors), (4, colors)]

def writeHeaders (width height stride : ℕ) : List UInt8 :=
  [0x42, 0x4D] ++ record (headerFields width height stride)

/-- An entry of the palette. -/
def paletteEntry (i : ℕ) : List UInt8 :=
  let shade := UInt8.ofNat (255 - i * 17)
  [shade, shade, shade, 0]

def writePalette : List UInt8 := (List.range 16).flatMap paletteEntry

/-- One pixel of row `y` into the row buffer. -/
def packPixel (d : δ) (y : ℕ) (rowBuffer : List UInt8) (x : ℕ) : List UInt8 :=
  let raw := getPixel d (x, y)
  let paletteIdx := (255 - raw) / 17
  rowBuffer.modify (x / 2) fun byte =>
    if x % 2 = 0 then byte ||| (paletteIdx <<< (4 : UInt8))
    else byte ||| (paletteIdx &&& (0x0F : UInt8))

def rowBuffer (d : δ) (width stride y : ℕ) : List UInt8 :=
  (List.range width).foldl (packPixel d y) (List.replicate stride 0)

/-- The loop counts rows down in an `int32_t`. -/
def writePixelRows (d : δ) (width height stride : ℕ) : List UInt8 :=
  (List.range (int32 height).toNat).reverse.flatMap (rowBuffer d width stride)

def strideOf (width : ℕ) : ℕ := add32 (mul32 width 4) 31 / 32 * 4

/-- The bytes of the file, if it could be opened. -/
def writeBmp (isOpen : Bool) (d : δ) : Except Str (List UInt8) :=
  if !isOpen then .error "Could not open destination file for BMP".toList
  else
    let stride := strideOf (bounds d).width
    .ok (writeHeaders (bounds d).width (bounds d).height stride ++
      (writePalette ++ writePixelRows d (bounds d).width (bounds d).height stride))

/-- The sizes the file is written for: none of its numbers overflows. -/
structure Fits (b : DisplayBounds) : Prop where
  width : b.width * 4 + 31 < 2 ^ 32
  height : b.height < 2 ^ 31
  fileSize : 118 + (b.width * 4 + 31) / 32 * 4 * b.height < 2 ^ 32

/-! ### A row -/

/-- The byte of a row of `w` pixels that holds pixels `2 * j` and `2 * j + 1`. -/
def packed (d : δ) (y w j : ℕ) : UInt8 :=
  (if 2 * j < w then quantise (getPixel d (2 * j, y)) <<< (4 : UInt8) else 0) |||
    ((if 2 * j + 1 < w then quantise (getPixel d (2 * j + 1, y)) else 0) &&& (0x0F : UInt8))

theorem length_rowBuffer (d : δ) (width stride y : ℕ) :
    (rowBuffer d width stride y).length = stride := by
  unfold rowBuffer
  induction width with
  | zero => simp
  | succ w ih =>
    rw [List.range_succ, List.foldl_append, List.foldl_cons, List.foldl_nil, packPixel,
      List.length_modify, ih]

/-- The byte of the next pixel gets it; the others stay. -/
theorem packed_succ (d : δ) (y w j : ℕ) : packed d y (w + 1) j =
    if w / 2 = j then
      if w % 2 = 0 then packed d y w j ||| (quantise (getPixel d (w, y)) <<< (4 : UInt8))
      else packed d y w j ||| (quantise (getPixel d (w, y)) &&& (0x0F : UInt8))
    else packed d y w j := by
  unfold packed
  by_cases hj : w / 2 = j
  · by_cases heven : w % 2 = 0
    · obtain rfl : w = 2 * j := by omega
      have hodd : ¬ 2 * j + 1 < 2 * j := by omega
      simp [hj, hodd]
    · obtain rfl : w = 2 * j + 1 := by omega
      have hleft : 2 * j < 2 * j + 1 + 1 := by omega
      simp [hj, hleft]
  · have hleft : 2 * j < w + 1 ↔ 2 * j < w := by omega
    have hright : 2 * j + 1 < w + 1 ↔ 2 * j + 1 < w := by omega
    simp only [hleft, hright, hj, if_false]

/-- A row buffer holds the pixels packed so far. -/
theorem getElem?_rowBuffer (d : δ) (width stride y : ℕ) {j : ℕ} (hj : j < stride) :
    (rowBuffer d width stride y)[j]? = some (packed d y width j) := by
  unfold rowBuffer
  induction width with
  | zero => simp [packed, hj]
  | succ w ih =>
    rw [List.range_succ, List.foldl_append, List.foldl_cons, List.foldl_nil, packPixel,
      List.getElem?_modify, ih, packed_succ]
    split_ifs <;> rfl

/-- The half of a byte that a reader looks at is the index of the pixel. -/
theorem packed_left (d : δ) {y w j : ℕ} (hj : 2 * j < w) :
    packed d y w j >>> (4 : UInt8) = quantise (getPixel d (2 * j, y)) := by
  rw [packed, if_pos hj, UInt8.or_comm, Nibble.high_setHigh,
    Nibble.and_eq_self (quantise_lt _)]

theorem packed_right (d : δ) {y w j : ℕ} (hj : 2 * j + 1 < w) :
    packed d y w j &&& (0x0F : UInt8) = quantise (getPixel d (2 * j + 1, y)) := by
  have hleft : 2 * j < w := by omega
  rw [packed, if_pos hj, if_pos hleft, UInt8.or_comm, Nibble.low_setHigh,
    Nibble.and_eq_self (quantise_lt _)]

/-! ### The parts of the file -/

theorem length_writeHeaders (width height stride : ℕ) :
    (writeHeaders width height stride).length = 54 := by
  simp [writeHeaders, headerFields, length_record]

theorem length_paletteEntry (i : ℕ) : (paletteEntry i).length = 4 := rfl

theorem length_writePalette : writePalette.length = 64 :=
  Bytes.length_flatMap paletteEntry _ fun i _ => length_paletteEntry i

/-- The shade of an index is the level it is read as. -/
theorem shade_eq {n : UInt8} (h : n < 16) : UInt8.ofNat (255 - n.toNat * 17) = levelOf n := by
  have hlt : n.toNat < 16 := by simpa [UInt8.lt_iff_toNat_lt] using h
  apply UInt8.toNat_inj.mp
  simp only [levelOf, UInt8.toNat_ofNat', UInt8.toNat_sub, UInt8.toNat_mul, UInt8.reduceToNat]
  omega

/-- What a reader finds in the headers. -/
theorem info_writeHeaders {width height : ℕ} (hw : width < 256 ^ 4) (hh : height < 256 ^ 4)
    (stride : ℕ) (rest : List UInt8) : Bmp.info (writeHeaders width height stride ++ rest) =
      some { fileSize := add32 (14 + 40 + 16 * 4) (mul32 stride height), dataOffset := 118,
             headerSize := 40, width := width, height := height, planes := 1, bitCount := 4,
             compression := 0, colorsUsed := 16 } := by
  have hwidths : (headerFields width height stride).map Prod.fst =
      [4, 4, 4, 4, 4, 4, 2, 2, 4, 4, 4, 4, 4, 4] := rfl
  have hread : ∀ {k n v i : ℕ}, (headerFields width height stride)[k]? = some (n, v) → v < 256 ^ n →
      2 + ([4, 4, 4, 4, 4, 4, 2, 2, 4, 4, 4, 4, 4, 4].take k).sum = i →
      field ([0x42, 0x4D] ++ (record (headerFields width height stride) ++ rest)) i n = some v :=
    fun hk hv hi => field_record_at hwidths hk hv hi
  have hbytes : (256 : ℕ) ^ 4 = 4294967296 := by norm_num
  have hsize : add32 (14 + 40 + 16 * 4) (mul32 stride height) < 256 ^ 4 := by
    rw [hbytes]
    exact Nat.mod_lt _ (by decide)
  rw [writeHeaders, List.append_assoc]
  apply Bmp.info_of_fields
  · exact Bmp.magic_append _
  · exact hread (k := 0) rfl hsize rfl
  · exact hread (k := 2) (v := 118) rfl (by decide) rfl
  · exact hread (k := 3) (v := 40) rfl (by decide) rfl
  · exact hread (k := 4) rfl hw rfl
  · exact hread (k := 5) rfl hh rfl
  · exact hread (k := 6) (v := 1) rfl (by decide) rfl
  · exact hread (k := 7) (v := 4) rfl (by decide) rfl
  · exact hread (k := 8) (v := 0) rfl (by decide) rfl
  · exact hread (k := 12) (v := 16) rfl (by decide) rfl

/-- A byte behind the headers. -/
theorem getElem?_behind {rest : List UInt8} {width height stride k : ℕ} :
    (writeHeaders width height stride ++ rest)[54 + k]? = rest[k]? := by
  rw [List.getElem?_append_right (by rw [length_writeHeaders]; omega), length_writeHeaders,
    Nat.add_sub_cancel_left]

theorem getElem?_palette {i : ℕ} (hi : i < 16) {j : ℕ} (hj : j < 4) (rest : List UInt8) :
    (writePalette ++ rest)[i * 4 + j]? = (paletteEntry i)[j]? := by
  rw [List.getElem?_append_left (by rw [length_writePalette]; omega), writePalette,
    Bytes.getElem?_flatMap paletteEntry _ (fun i _ => length_paletteEntry i) i hj,
    List.getElem?_range hi]
  rfl

section File

variable {d : δ} (h : Fits (bounds d))

include h

theorem Fits.int32_height : (int32 (bounds d).height).toNat = (bounds d).height := by
  have hheight := h.height
  rw [int32, if_pos (by omega)]
  rfl

theorem Fits.strideOf_eq : strideOf (bounds d).width = ((bounds d).width * 4 + 31) / 32 * 4 := by
  have hwidth := h.width
  unfold strideOf add32 mul32
  omega

theorem Fits.fileSize_eq :
    add32 (14 + 40 + 16 * 4) (mul32 (strideOf (bounds d).width) (bounds d).height) =
      118 + strideOf (bounds d).width * (bounds d).height := by
  have hsize := h.fileSize
  rw [← h.strideOf_eq] at hsize
  unfold add32 mul32
  omega

theorem Fits.length_rows :
    (writePixelRows d (bounds d).width (bounds d).height (strideOf (bounds d).width)).length =
      (bounds d).height * strideOf (bounds d).width := by
  unfold writePixelRows
  rw [Bytes.length_flatMap _ _ fun y _ => length_rowBuffer d _ _ y, h.int32_height]
  simp

/-- A byte of a row; the rows are written from the bottom up. -/
theorem Fits.getElem?_rows {y j : ℕ} (hy : y < (bounds d).height)
    (hj : j < strideOf (bounds d).width) :
    (writePixelRows d (bounds d).width (bounds d).height (strideOf (bounds d).width))[
      ((bounds d).height - 1 - y) * strideOf (bounds d).width + j]? =
        some (packed d y (bounds d).width j) := by
  unfold writePixelRows
  rw [Bytes.getElem?_flatMap _ _ (fun y _ => length_rowBuffer d _ _ y) _ hj, h.int32_height]
  have hrow : (List.range (bounds d).height).reverse[(bounds d).height - 1 - y]? = some y := by
    rw [List.getElem?_reverse (by simp; omega), List.length_range, Nat.sub_sub_self (by omega)]
    exact List.getElem?_range hy
  rw [hrow]
  exact getElem?_rowBuffer d _ _ y hj

end File

/-! ### What a reader sees -/

/-- The file is a BMP of the screen: it has the size it declares, its pixels start
at the offset it declares, and a reader finds `gray` at every pixel. -/
structure Decodes (file : List UInt8) (d : δ) (gray : ℕ × ℕ → UInt8) : Prop where
  headers : ∃ i, Bmp.info file = some i ∧ i.Readable ∧ i.width = (bounds d).width ∧
    i.height = (bounds d).height ∧ i.fileSize = file.length ∧
    ∃ head, file = head ++
        writePixelRows d (bounds d).width (bounds d).height (strideOf (bounds d).width) ∧
      i.dataOffset = head.length
  pixels : ∀ x y, x < (bounds d).width → y < (bounds d).height →
    Bmp.pixel file x y = some ⟨gray (x, y), gray (x, y), gray (x, y)⟩

theorem color_writeHeaders (width height stride : ℕ) (rest : List UInt8) {i : Bmp.Info}
    (hi : i.headerSize = 40) (hcolors : i.colors = 16) {n : UInt8} (hn : n < 16) :
    Bmp.color (writeHeaders width height stride ++ (writePalette ++ rest)) i n.toNat =
      some ⟨levelOf n, levelOf n, levelOf n⟩ := by
  have hlt : n.toNat < 16 := by simpa [UInt8.lt_iff_toNat_lt] using hn
  have hentry : ∀ j < 4, (writeHeaders width height stride ++ (writePalette ++ rest))[
      14 + i.headerSize + (n.toNat * 4 + j)]? = (paletteEntry n.toNat)[j]? := by
    intro j hj
    rw [hi]
    exact (getElem?_behind (k := n.toNat * 4 + j)).trans (getElem?_palette hlt hj rest)
  rw [Bmp.color, if_pos (hcolors ▸ hlt), hentry 0 (by decide), hentry 1 (by decide),
    hentry 2 (by decide)]
  simp only [paletteEntry, shade_eq hn]
  rfl

section File

variable {d : δ} (h : Fits (bounds d))

include h

theorem Fits.bytes : (bounds d).width < 256 ^ 4 ∧ (bounds d).height < 256 ^ 4 := by
  have hbytes : (256 : ℕ) ^ 4 = 4294967296 := by norm_num
  have hwidth := h.width
  have hheight := h.height
  rw [hbytes]
  omega

theorem Fits.lt_stride {x : ℕ} (hx : x < (bounds d).width) : x / 2 < strideOf (bounds d).width := by
  rw [h.strideOf_eq]
  omega

/-- The byte of a pixel in the file. -/
theorem Fits.getElem?_pixel {x y : ℕ} (hx : x < (bounds d).width) (hy : y < (bounds d).height) :
    (writeHeaders (bounds d).width (bounds d).height (strideOf (bounds d).width) ++
      (writePalette ++
        writePixelRows d (bounds d).width (bounds d).height (strideOf (bounds d).width)))[
      118 + (((bounds d).height - 1 - y) * strideOf (bounds d).width + x / 2)]? =
        some (packed d y (bounds d).width (x / 2)) := by
  rw [← h.getElem?_rows hy (h.lt_stride hx)]
  generalize ((bounds d).height - 1 - y) * strideOf (bounds d).width + x / 2 = k
  calc _ = (writePalette ++ writePixelRows d (bounds d).width (bounds d).height
        (strideOf (bounds d).width))[64 + k]? := by
        rw [show 118 + k = 54 + (64 + k) by omega]
        exact getElem?_behind
    _ = _ := by
        rw [List.getElem?_append_right (by rw [length_writePalette]; omega), length_writePalette,
          Nat.add_sub_cancel_left]

/-- The palette index a reader finds for a pixel. -/
theorem Fits.index_eq {i : Bmp.Info} (hi : i.dataOffset = 118) (hw : i.width = (bounds d).width)
    (hh : i.height = (bounds d).height) {x y : ℕ} (hx : x < (bounds d).width)
    (hy : y < (bounds d).height) :
    Bmp.index (writeHeaders (bounds d).width (bounds d).height (strideOf (bounds d).width) ++
      (writePalette ++ writePixelRows d (bounds d).width (bounds d).height
        (strideOf (bounds d).width))) i x y = some (quantise (getPixel d (x, y))).toNat := by
  have hstride : i.stride = strideOf (bounds d).width := by rw [h.strideOf_eq, ← hw]; rfl
  rw [Bmp.index, hi, hh, hstride, h.getElem?_pixel hx hy, Option.map_some]
  by_cases heven : x % 2 = 0
  · have hleft := packed_left d (y := y) (show 2 * (x / 2) < (bounds d).width by omega)
    rw [if_pos heven, hleft, show 2 * (x / 2) = x by omega]
  · have hright := packed_right d (y := y) (show 2 * (x / 2) + 1 < (bounds d).width by omega)
    rw [if_neg heven, hright, show 2 * (x / 2) + 1 = x by omega]

/-- What a reader finds in the headers, for a screen whose sizes fit. -/
theorem Fits.info_eq (rest : List UInt8) : ∃ i,
    Bmp.info (writeHeaders (bounds d).width (bounds d).height (strideOf (bounds d).width) ++ rest) =
      some i ∧ i.Readable ∧ i.width = (bounds d).width ∧ i.height = (bounds d).height ∧
    i.fileSize = 118 + strideOf (bounds d).width * (bounds d).height ∧ i.dataOffset = 118 ∧
    i.headerSize = 40 ∧ i.colors = 16 := by
  obtain ⟨hw, hh⟩ := h.bytes
  exact ⟨_, info_writeHeaders hw hh _ rest, ⟨rfl, rfl, rfl, rfl, h.height⟩, rfl, rfl, h.fileSize_eq,
    rfl, rfl, rfl⟩

theorem Fits.decodes : ∃ file, writeBmp true d = .ok file ∧
    Decodes file d fun p => levelOf (quantise (getPixel d p)) := by
  obtain ⟨i, hinfo, hreadable, hwidth, hheight, hsize, hoffset, hheader, hcolors⟩ :=
    h.info_eq (writePalette ++
      writePixelRows d (bounds d).width (bounds d).height (strideOf (bounds d).width))
  refine ⟨_, rfl, ⟨i, hinfo, hreadable, hwidth, hheight, ?_,
    writeHeaders (bounds d).width (bounds d).height (strideOf (bounds d).width) ++ writePalette,
    (List.append_assoc _ _ _).symm, ?_⟩, fun x y hx hy => ?_⟩
  · rw [hsize, List.length_append, List.length_append, length_writeHeaders, length_writePalette,
      h.length_rows, Nat.mul_comm (strideOf _)]
    omega
  · rw [hoffset, List.length_append, length_writeHeaders, length_writePalette]
  · have hinside : i.Readable ∧ x < i.width ∧ y < i.height :=
      ⟨hreadable, hwidth ▸ hx, hheight ▸ hy⟩
    rw [Bmp.pixel, hinfo, Option.bind_eq_bind, Option.bind_some, if_pos hinside,
      h.index_eq hoffset hwidth hheight hx hy]
    exact color_writeHeaders _ _ _ _ hheader hcolors (quantise_lt _)

end File

/-- **A screenshot decodes back.** Written for a display of any size, the file is a
BMP in which a reader finds the level of every pixel as one of sixteen, and the
level itself where the display keeps no more than these. -/
theorem writeBmp_decodes :
    (∀ (δ : Type*) [IDisplay δ] (d : δ), Fits (bounds d) → ∃ file, writeBmp true d = .ok file ∧
      Decodes file d fun p => levelOf (quantise (getPixel d p))) ∧
    ∀ d : KindleDisplay, Fits (bounds d) → ∃ file, writeBmp true d = .ok file ∧
      Decodes file d (getPixel d) := by
  refine ⟨fun δ _ d h => h.decodes, fun d h => ?_⟩
  obtain ⟨file, hfile, hdecodes⟩ := h.decodes
  refine ⟨file, hfile, hdecodes.headers, fun x y hx hy => ?_⟩
  have hlevel : levelOf (quantise (getPixel d (x, y))) = getPixel d (x, y) := by
    show levelOf (quantise (d.getPixel (x, y))) = d.getPixel (x, y)
    have hin : ¬ ((x, y).1 ≥ d.bounds.width ∨ (x, y).2 ≥ d.bounds.height) :=
      not_or.mpr ⟨Nat.not_le.mpr hx, Nat.not_le.mpr hy⟩
    rw [KindleDisplay.getPixel_eq, if_neg hin, quantise_levelOf (KindleDisplay.nibbleAt_lt _)]
  have hpixel := hdecodes.pixels x y hx hy
  simp only [hlevel] at hpixel
  exact hpixel

/-- A white screen of three pixels by two, and a black one of the device. -/
theorem writeBmp_decodes_small :
    (∃ file, writeBmp true (MockDisplay.new ⟨3, 2, 4⟩) = .ok file ∧
      Decodes file (MockDisplay.new ⟨3, 2, 4⟩) fun p =>
        levelOf (quantise (getPixel (MockDisplay.new ⟨3, 2, 4⟩) p))) ∧
    ∃ file, writeBmp true KindleDisplay.small = .ok file ∧
      Decodes file KindleDisplay.small (getPixel KindleDisplay.small) := by
  have hfits : Fits ⟨3, 2, 4⟩ := by
    refine ⟨?_, ?_, ?_⟩ <;> show _ < _ <;> decide
  exact ⟨writeBmp_decodes.1 MockDisplay _ hfits, writeBmp_decodes.{0}.2 _ hfits⟩

end ScreenshotWriter
end Launchpad
