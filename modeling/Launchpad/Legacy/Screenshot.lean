/-
# Screenshots of the legacy program

`do_screenshot` of `src/screenshot.c`: two headers, the palette, and the rows of the
framebuffer read one by one. The lowest row comes first in the file, and the offset
of row `i` is meant to go down from the end of the image; but it is two rows too far,
so that the first two reads lie behind the image and the file is the screen shifted
by two rows. The size of the file in the header is that of a Kindle 3 whatever the
screen is. A screenshot is right only by chance (`screenshot_iff`).

An `int` that overflows has no value.
-/
import Launchpad.Bmp
import Launchpad.Framebuffer

namespace Launchpad
namespace Legacy

open Bytes

/-- `SCREENW`. -/
def screenW : ℕ := 600

/-- `SCREENH`. -/
def screenH : ℕ := 800

/-- `NCOLORS`. -/
def ncolors : ℕ := 16

/-- `IMGSIZE`. -/
def imgSize : ℕ := screenW / (8 / 4) * screenH

/-- `K3DPM`: 166 dots per inch. -/
def k3Dpm : ℕ := 6535

/-- `KDXDPM`: 150 dots per inch. -/
def kdxDpm : ℕ := 5905

/-- What the system gives: whether the device opens, `FBIOGET_VSCREENINFO`, and the bytes
that can be read from it. -/
structure FbNode where
  opens : Bool
  screenInfo : Option VarScreenInfo
  memory : List UInt8

/-- The value of an expression of type `int`. -/
def int? (z : ℤ) : Option ℤ := if -2147483648 ≤ z ∧ z < 2147483648 then some z else none

/-- An `int` as an unsigned number of 32 bits. -/
def uint32 (z : ℤ) : ℕ := (z % 4294967296).toNat

def magichdr : List UInt8 := [0x42, 0x4D]

/-- `bmp_offset`: the sizes of what is before the rows. -/
def bmpOffset : ℕ := 2 + 12 + 40 + ncolors * 4

/-- The fields of `file_h` and `dib_h`. -/
def headerFields (xres yres bpp imgsize : ℤ) : List (ℕ × ℕ) :=
  let filesz := bmpOffset + imgSize
  let hres := if xres > screenW then kdxDpm else k3Dpm
  [(4, filesz), (2, 0), (2, 0), (4, bmpOffset), (4, 40), (4, uint32 xres), (4, uint32 yres), (2, 1),
    (2, uint32 bpp), (4, 0), (4, uint32 imgsize), (4, hres), (4, hres), (4, ncolors), (4, 0)]

def colortab : List UInt8 :=
  ([0xff, 0xee, 0xdd, 0xcc, 0xbb, 0xaa, 0x99, 0x88, 0x77, 0x66, 0x55, 0x44, 0x33, 0x22, 0x11, 0x00] :
    List UInt8).flatMap fun shade => [shade, shade, shade, 0]

/-- `lseek` and `read` into the row buffer: what is not read stays as it was. -/
def readRow (memory : List UInt8) (offset : ℤ) (rowbuf : List UInt8) : List UInt8 :=
  let got := (memory.drop offset.toNat).take rowbuf.length
  got ++ rowbuf.drop got.length

/-- The loop over the rows, with the row buffer. -/
def writeRows (memory : List UInt8) (imgsize bperrow : ℤ) : List ℕ → List UInt8 → Option (List UInt8)
  | [], _ => some []
  | i :: is, rowbuf =>
    (int? (imgsize - bperrow * (i - 1))).bind fun offset =>
      let rowbuf := readRow memory offset rowbuf
      (writeRows memory imgsize bperrow is rowbuf).map (rowbuf ++ ·)

/-- What is written; the row buffer is an array of `bperrow` bytes that begins as `junk`. -/
def writeImage (memory : List UInt8) (xres yres bpp imgsize bperrow : ℤ) (junk : ℕ → UInt8) :
    Option (List UInt8) :=
  if bperrow ≤ 0 then none
  else
    (writeRows memory imgsize bperrow (List.range yres.toNat)
      ((List.range bperrow.toNat).map junk)).map fun rows =>
        magichdr ++ (record (headerFields xres yres bpp imgsize) ++ (colortab ++ rows))

/-- `do_screenshot`: the result and the file. -/
def doScreenshot (dev : FbNode) (destOpens : Bool) (junk : ℕ → UInt8) :
    Option (ℤ × Option (List UInt8)) :=
  if !dev.opens || !destOpens then some (1, none)
  else
    match dev.screenInfo with
    | none =>
      (writeImage dev.memory screenW screenH 4 imgSize (imgSize / screenH) junk).map fun file =>
        (0, some file)
    | some v =>
      let xres := int32 v.xres.toNat
      let yres := int32 v.yres.toNat
      let bpp := int32 v.bitsPerPixel.toNat
      -- a division by zero
      if bpp = 0 ∨ Int.tdiv 8 bpp = 0 ∨ yres = 0 then none
      else
        (int? (xres.tdiv (Int.tdiv 8 bpp) * yres)).bind fun imgsize =>
          (writeImage dev.memory xres yres bpp imgsize (imgsize.tdiv yres) junk).map fun file =>
            (0, some file)

/-- A framebuffer as the kernel reports it: four or eight bits a pixel, rows of a multiple
of four bytes, and memory for all of them. -/
structure FbScreen where
  info : VarScreenInfo
  memory : List UInt8
  xres_pos : 0 < info.xres.toNat
  yres_pos : 0 < info.yres.toNat
  depth : info.bitsPerPixel.toNat = 4 ∨ info.bitsPerPixel.toNat = 8
  aligned : 32 ∣ info.xres.toNat * info.bitsPerPixel.toNat
  holds : info.yres.toNat * (info.xres.toNat * info.bitsPerPixel.toNat / 8) ≤ memory.length

namespace FbScreen

abbrev xres (f : FbScreen) : ℕ := f.info.xres.toNat
abbrev yres (f : FbScreen) : ℕ := f.info.yres.toNat
abbrev bpp (f : FbScreen) : ℕ := f.info.bitsPerPixel.toNat

def node (f : FbScreen) : FbNode := ⟨true, some f.info, f.memory⟩

/-- The bytes of a row. -/
def rowBytes (f : FbScreen) : ℕ := f.xres * f.bpp / 8

def row (f : FbScreen) (r : ℕ) : List UInt8 := (f.memory.drop (r * f.rowBytes)).take f.rowBytes

/-- The file is a bottom-up BMP of the screen, of the size it declares. -/
def IsScreenshot (f : FbScreen) (file : List UInt8) : Prop :=
  ∃ i, Bmp.info file = some i ∧ i.BottomUp ∧ i.width = f.xres ∧ i.height = f.yres ∧ i.bitCount = f.bpp ∧
    i.fileSize = file.length ∧ ∀ k < f.yres, Bmp.storedRow file i k = f.row (f.yres - 1 - k)

/-- Every second row is the same, and so is what is read behind the last row: two rows
behind it, where the buffer is left as it was at the start, and one row behind it, where
the buffer is left with the last row. -/
structure Repeats (f : FbScreen) (junk : ℕ → UInt8) : Prop where
  rows : ∀ r, r + 2 < f.yres → f.row (r + 2) = f.row r
  last : readRow f.memory ((f.yres + 1) * f.rowBytes : ℕ) ((List.range f.rowBytes).map junk) =
    f.row (f.yres - 1)
  lastButOne : 1 < f.yres →
    readRow f.memory (f.yres * f.rowBytes : ℕ) (f.row (f.yres - 1)) = f.row (f.yres - 2)

end FbScreen

/-! ### The rows -/

variable {memory rowbuf : List UInt8} {imgsize bperrow offset : ℤ}

@[simp] theorem length_readRow (memory : List UInt8) (offset : ℤ) (rowbuf : List UInt8) :
    (readRow memory offset rowbuf).length = rowbuf.length := by
  simp only [readRow, List.length_append, List.length_drop, List.length_take]
  omega

/-- A row that can be read to its end. -/
theorem readRow_eq {n : ℕ} (h : n + rowbuf.length ≤ memory.length) :
    readRow memory n rowbuf = (memory.drop n).take rowbuf.length := by
  have hlen : ((memory.drop n).take rowbuf.length).length = rowbuf.length := by
    rw [List.length_take, List.length_drop]
    omega
  simp only [readRow, Int.toNat_natCast, hlen, List.drop_length, List.append_nil]

/-- The row buffer after the rounds `start`, …, `start + k`. -/
def rowbufAfter (memory : List UInt8) (imgsize bperrow : ℤ) (start : ℕ) (rowbuf : List UInt8) :
    ℕ → List UInt8
  | 0 => readRow memory (imgsize - bperrow * (start - 1)) rowbuf
  | k + 1 => readRow memory (imgsize - bperrow * ((start + (k + 1) : ℕ) - 1))
      (rowbufAfter memory imgsize bperrow start rowbuf k)

theorem rowbufAfter_succ (start : ℕ) (rowbuf : List UInt8) : ∀ k : ℕ,
    rowbufAfter memory imgsize bperrow start rowbuf (k + 1) =
      rowbufAfter memory imgsize bperrow (start + 1)
        (readRow memory (imgsize - bperrow * (start - 1)) rowbuf) k
  | 0 => rfl
  | k + 1 => by
    have hstart : start + (k + 1 + 1) = start + 1 + (k + 1) := by omega
    rw [rowbufAfter, rowbufAfter_succ start rowbuf k, hstart]
    rfl

theorem length_writeRows : ∀ (is : List ℕ) (rowbuf : List UInt8) {rows : List UInt8},
    writeRows memory imgsize bperrow is rowbuf = some rows → rows.length = is.length * rowbuf.length
  | [], _, _, h => by
    obtain rfl := Option.some.inj h
    simp
  | i :: is, rowbuf, rows, h => by
    rw [writeRows] at h
    obtain ⟨offset, -, h⟩ := Option.bind_eq_some_iff.mp h
    obtain ⟨rest, hrest, rfl⟩ := Option.map_eq_some_iff.mp h
    have ih := length_writeRows is _ hrest
    rw [length_readRow] at ih
    rw [List.length_append, length_readRow, ih, List.length_cons, Nat.succ_mul, Nat.add_comm]

/-- The rows are what the buffer holds after each round. -/
theorem writeRows_eq_some (memory : List UInt8) (imgsize bperrow : ℤ) (n : ℕ) :
    ∀ (start : ℕ) (rowbuf : List UInt8), (∀ i, start ≤ i → i < start + n →
      int? (imgsize - bperrow * (i - 1)) = some (imgsize - bperrow * (i - 1))) →
    ∃ rows, writeRows memory imgsize bperrow (List.range' start n) rowbuf = some rows ∧
      ∀ k < n, (rows.drop (k * rowbuf.length)).take rowbuf.length =
        rowbufAfter memory imgsize bperrow start rowbuf k := by
  induction n with
  | zero => exact fun _ _ _ => ⟨[], rfl, nofun⟩
  | succ n ih =>
    intro start rowbuf hfits
    obtain ⟨rows, hrows, hk⟩ := ih (start + 1)
      (readRow memory (imgsize - bperrow * (start - 1)) rowbuf)
      fun i hi hi' => hfits i (by omega) (by omega)
    rw [length_readRow] at hk
    refine ⟨readRow memory (imgsize - bperrow * (start - 1)) rowbuf ++ rows, ?_, fun k hlt => ?_⟩
    · rw [List.range'_succ, writeRows, hfits start le_rfl (by omega), Option.bind_some]
      dsimp only
      rw [hrows]
      rfl
    · have hlen := length_readRow memory (imgsize - bperrow * (start - 1)) rowbuf
      cases k with
      | zero => rw [Nat.zero_mul, List.drop_zero, List.take_left' hlen, rowbufAfter]
      | succ k =>
        rw [Nat.succ_mul, Nat.add_comm, ← List.drop_drop, List.drop_left' hlen,
          hk k (by omega), rowbufAfter_succ]

/-! ### The headers -/

theorem length_headers (xres yres bpp imgsize : ℤ) :
    (record (headerFields xres yres bpp imgsize)).length = 52 := by
  simp [headerFields, length_record]

/-- What is in front of the rows. -/
theorem length_front (xres yres bpp imgsize : ℤ) :
    (magichdr ++ (record (headerFields xres yres bpp imgsize) ++ colortab)).length = bmpOffset := by
  simp only [List.length_append, length_headers]
  rfl

theorem length_file (xres yres bpp imgsize : ℤ) (rows : List UInt8) :
    (magichdr ++ (record (headerFields xres yres bpp imgsize) ++ (colortab ++ rows))).length =
      bmpOffset + rows.length := by
  rw [← length_front xres yres bpp imgsize, ← List.length_append]
  simp only [List.append_assoc]

theorem drop_file (xres yres bpp imgsize : ℤ) (rows : List UInt8) (n : ℕ) :
    (magichdr ++ (record (headerFields xres yres bpp imgsize) ++ (colortab ++ rows))).drop
      (bmpOffset + n) = rows.drop n := by
  have hfront : magichdr ++ (record (headerFields xres yres bpp imgsize) ++ (colortab ++ rows)) =
      (magichdr ++ (record (headerFields xres yres bpp imgsize) ++ colortab)) ++ rows := by
    simp only [List.append_assoc]
  rw [hfront, ← length_front xres yres bpp imgsize, ← List.drop_drop, List.drop_left]

theorem uint32_lt (z : ℤ) : uint32 z < 256 ^ 4 := by
  unfold uint32
  norm_num
  omega

/-- What a reader finds in the headers. -/
theorem info_headers (xres yres imgsize : ℤ) {bpp : ℤ} (hbpp : uint32 bpp < 256 ^ 2)
    (rest : List UInt8) :
    Bmp.info (magichdr ++ (record (headerFields xres yres bpp imgsize) ++ rest)) =
      some { fileSize := bmpOffset + imgSize, dataOffset := bmpOffset, headerSize := 40,
             width := uint32 xres, height := uint32 yres, planes := 1, bitCount := uint32 bpp,
             compression := 0, colorsUsed := ncolors } := by
  have hwidths : (headerFields xres yres bpp imgsize).map Prod.fst =
      [4, 2, 2, 4, 4, 4, 4, 2, 2, 4, 4, 4, 4, 4, 4] := rfl
  have hread : ∀ {k n v i : ℕ}, (headerFields xres yres bpp imgsize)[k]? = some (n, v) →
      v < 256 ^ n → 2 + ([4, 2, 2, 4, 4, 4, 4, 2, 2, 4, 4, 4, 4, 4, 4].take k).sum = i →
      field (magichdr ++ (record (headerFields xres yres bpp imgsize) ++ rest)) i n = some v :=
    fun hk hv hi => field_record_at hwidths hk hv hi
  apply Bmp.info_of_fields
  · exact Bmp.magic_append _
  · exact hread (k := 0) (v := bmpOffset + imgSize) rfl (by decide) rfl
  · exact hread (k := 3) (v := bmpOffset) rfl (by decide) rfl
  · exact hread (k := 4) (v := 40) rfl (by decide) rfl
  · exact hread (k := 5) rfl (uint32_lt xres) rfl
  · exact hread (k := 6) rfl (uint32_lt yres) rfl
  · exact hread (k := 7) (v := 1) rfl (by decide) rfl
  · exact hread (k := 8) rfl hbpp rfl
  · exact hread (k := 9) (v := 0) rfl (by decide) rfl
  · exact hread (k := 13) (v := ncolors) rfl (by decide) rfl

/-! ### Screenshots of a screen -/

theorem uint32_natCast {n : ℕ} (h : n < 4294967296) : uint32 n = n := by
  rw [uint32, Int.emod_eq_of_lt (by omega) (by omega), Int.toNat_natCast]

theorem int32_eq {n : ℕ} (h : n < 2147483648) : int32 n = n := if_pos h

theorem int32_of_nonneg {n : ℕ} (hn : n < 4294967296) (h : 0 ≤ int32 n) : int32 n = n := by
  unfold int32 at h ⊢
  split_ifs at h ⊢ <;> omega

namespace FbScreen

variable {f : FbScreen} {junk : ℕ → UInt8}

theorem bpp_mem (f : FbScreen) : 4 ≤ f.bpp ∧ f.bpp ≤ 8 := by
  rcases f.depth with h | h <;> rw [bpp, h] <;> decide

theorem int32_bpp (f : FbScreen) : int32 f.bpp = f.bpp :=
  int32_eq (f.bpp_mem.2.trans_lt (by decide))

theorem uint32_bpp_lt (f : FbScreen) : uint32 f.bpp < 256 ^ 2 := by
  rw [uint32_natCast f.info.bitsPerPixel.toNat_lt]
  exact f.bpp_mem.2.trans_lt (by decide)

theorem rowBytes_mul (f : FbScreen) : f.rowBytes * 8 = f.xres * f.bpp := by
  have haligned : 32 ∣ f.xres * f.bpp := f.aligned
  rw [rowBytes]
  omega

theorem rowBytes_pos (f : FbScreen) : 0 < f.rowBytes := by
  have hmul := f.rowBytes_mul
  have hpos : 0 < f.xres * f.bpp := Nat.mul_pos f.xres_pos (f.bpp_mem.1.trans_lt' (by decide))
  omega

theorem tdiv_eq (f : FbScreen) : (f.xres : ℤ).tdiv (Int.tdiv 8 f.bpp) = f.rowBytes := by
  have hmul := f.rowBytes_mul
  rcases f.depth with h | h
  · rw [bpp, h] at hmul ⊢
    show (f.xres : ℤ).tdiv 2 = f.rowBytes
    rw [Int.tdiv_eq_ediv_of_nonneg (by omega)]
    omega
  · rw [bpp, h] at hmul ⊢
    show (f.xres : ℤ).tdiv 1 = f.rowBytes
    rw [Int.tdiv_one]
    omega

/-- The offset of a round. -/
theorem offset_eq (hsize : f.rowBytes * f.yres = imgSize) {k : ℕ} (hk : k ≤ f.yres) :
    (imgSize : ℤ) - f.rowBytes * ((k : ℤ) - 1) = ((f.yres + 1 - k) * f.rowBytes : ℕ) := by
  rw [← hsize]
  push_cast [Nat.le_succ_of_le hk]
  ring

theorem offset_fits (hsize : f.rowBytes * f.yres = imgSize) {k : ℕ} (hk : k < f.yres) :
    int? (imgSize - f.rowBytes * ((k : ℤ) - 1)) = some (imgSize - f.rowBytes * ((k : ℤ) - 1)) := by
  have himg : imgSize = 240000 := rfl
  have hend : (f.yres + 1 - k) * f.rowBytes ≤ imgSize + imgSize :=
    calc (f.yres + 1 - k) * f.rowBytes ≤ (f.yres + f.yres) * f.rowBytes :=
          Nat.mul_le_mul_right _ (by omega)
      _ = imgSize + imgSize := by rw [Nat.add_mul, Nat.mul_comm, hsize]
  rw [offset_eq hsize hk.le]
  exact if_pos (by omega)

/-- The image of a screen of the size of a Kindle 3 screen. -/
theorem doScreenshot_eq (hsize : f.rowBytes * f.yres = imgSize) (junk : ℕ → UInt8) :
    ∃ rows, doScreenshot f.node true junk = some (0, some (magichdr ++
        (record (headerFields f.xres f.yres f.bpp imgSize) ++ (colortab ++ rows)))) ∧
      rows.length = imgSize ∧
      ∀ k < f.yres, (rows.drop (k * f.rowBytes)).take f.rowBytes =
        rowbufAfter f.memory imgSize f.rowBytes 0 ((List.range f.rowBytes).map junk) k := by
  have himg : imgSize = 240000 := rfl
  have hpos := f.rowBytes_pos
  have hy : 0 < f.yres := f.yres_pos
  have hyle : f.yres ≤ imgSize := hsize ▸ Nat.le_mul_of_pos_left _ hpos
  have hrle : f.rowBytes ≤ imgSize := hsize ▸ Nat.le_mul_of_pos_right _ hy
  have hxle : f.xres * 4 ≤ f.rowBytes * 8 := by
    rw [f.rowBytes_mul]
    exact Nat.mul_le_mul_left _ f.bpp_mem.1
  have hbpp : 4 ≤ f.bpp := f.bpp_mem.1
  have hdiv : Int.tdiv 8 f.bpp ≠ 0 := by
    rcases f.depth with h | h <;> rw [bpp, h] <;> decide
  obtain ⟨rows, hrows, hk⟩ := writeRows_eq_some f.memory imgSize f.rowBytes f.yres 0
    ((List.range f.rowBytes).map junk) fun i _ hi => offset_fits hsize (by omega)
  have hlen := length_writeRows _ _ hrows
  rw [List.length_range', List.length_map, List.length_range, Nat.mul_comm, hsize] at hlen
  rw [List.length_map, List.length_range] at hk
  refine ⟨rows, ?_, hlen, hk⟩
  have hmul : (f.rowBytes : ℤ) * f.yres = imgSize := by exact_mod_cast hsize
  have hint : int? (imgSize : ℤ) = some (imgSize : ℤ) := rfl
  have hrow : (imgSize : ℤ).tdiv f.yres = f.rowBytes := by
    rw [← hmul]
    exact Int.mul_tdiv_cancel _ (by omega)
  have hcond : ¬ ((f.bpp : ℤ) = 0 ∨ Int.tdiv 8 f.bpp = 0 ∨ (f.yres : ℤ) = 0) :=
    not_or.mpr ⟨by omega, not_or.mpr ⟨hdiv, by omega⟩⟩
  have hopens : ¬ (!f.node.opens || !true) = true := Bool.noConfusion
  rw [doScreenshot, if_neg hopens]
  dsimp only [node]
  rw [int32_eq (n := f.xres) (by omega), int32_eq (n := f.yres) (by omega), f.int32_bpp,
    if_neg hcond, f.tdiv_eq, hmul, hint, Option.bind_some, hrow, writeImage, if_neg (by omega),
    Int.toNat_natCast, Int.toNat_natCast, List.range_eq_range', hrows]
  rfl

/-- What is written is of the size in the header only if the screen is. -/
theorem size_of_doScreenshot {file : List UInt8}
    (h : doScreenshot f.node true junk = some (0, some file)) :
    ∃ imgsize rows, file = magichdr ++ (record (headerFields (int32 f.xres) (int32 f.yres)
        (int32 f.bpp) imgsize) ++ (colortab ++ rows)) ∧
      (rows.length = imgSize → f.rowBytes * f.yres = imgSize) := by
  have hopens : ¬ (!f.node.opens || !true) = true := Bool.noConfusion
  rw [doScreenshot, if_neg hopens] at h
  dsimp only [node] at h
  rw [Option.ite_none_left_eq_some] at h
  obtain ⟨hcond, h⟩ := h
  obtain ⟨imgsize, hint, h⟩ := Option.bind_eq_some_iff.mp h
  obtain ⟨image, himage, h⟩ := Option.map_eq_some_iff.mp h
  obtain rfl : image = file := by simpa using h
  rw [int?, Option.ite_none_right_eq_some, Option.some_inj] at hint
  obtain rfl := hint.2
  rw [writeImage, Option.ite_none_left_eq_some] at himage
  obtain ⟨hrow, himage⟩ := himage
  obtain ⟨rows, hrows, rfl⟩ := Option.map_eq_some_iff.mp himage
  refine ⟨_, rows, rfl, fun hlen => ?_⟩
  rw [length_writeRows _ _ hrows, List.length_range, List.length_map, List.length_range] at hlen
  have hy : int32 f.yres = f.yres := by
    refine int32_of_nonneg f.info.yres.toNat_lt (le_of_not_gt fun hneg => ?_)
    rw [Int.toNat_of_nonpos hneg.le, Nat.zero_mul] at hlen
    exact absurd hlen (by decide)
  have hypos : (f.yres : ℤ) ≠ 0 := by
    have hpos : 0 < f.yres := f.yres_pos
    omega
  rw [hy, Int.mul_tdiv_cancel _ hypos] at hrow hlen
  have hx : int32 f.xres = f.xres := by
    refine int32_of_nonneg f.info.xres.toNat_lt (le_of_not_gt fun hneg => hrow ?_)
    have hpixels : 0 ≤ Int.tdiv 8 (int32 f.bpp) := by
      rw [f.int32_bpp]
      exact Int.tdiv_nonneg (by decide) (by omega)
    have hquot := Int.tdiv_nonneg (neg_nonneg.mpr hneg.le) hpixels
    rw [Int.neg_tdiv] at hquot
    exact neg_nonneg.mp hquot
  rw [hx, f.int32_bpp, f.tdiv_eq, Int.toNat_natCast, Int.toNat_natCast] at hlen
  rw [← hlen, Nat.mul_comm]

theorem row_end_le (f : FbScreen) {r : ℕ} (hr : r < f.yres) :
    r * f.rowBytes + f.rowBytes ≤ f.memory.length := by
  rw [← Nat.succ_mul]
  exact (Nat.mul_le_mul_right _ hr).trans f.holds

theorem length_row (f : FbScreen) {r : ℕ} (hr : r < f.yres) : (f.row r).length = f.rowBytes := by
  have hend := f.row_end_le hr
  rw [row, List.length_take, List.length_drop]
  omega

/-- From the third round on the row read is two rows below the one that is due. -/
theorem readRow_late (hsize : f.rowBytes * f.yres = imgSize) {k r : ℕ} (hk : k + 2 < f.yres)
    (hr : r < f.yres) : readRow f.memory (imgSize - f.rowBytes * ((0 + (k + 2) : ℕ) - 1)) (f.row r) =
      f.row (f.yres - 1 - k) := by
  have hindex : f.yres + 1 - (0 + (k + 2)) = f.yres - 1 - k := by omega
  have hend : (f.yres - 1 - k) * f.rowBytes + (f.row r).length ≤ f.memory.length := by
    rw [f.length_row hr]
    exact f.row_end_le (by omega)
  rw [offset_eq hsize (by omega), hindex, readRow_eq hend, f.length_row hr]
  rfl

/-- The buffers are the rows of the screen from the last one up exactly when it repeats. -/
theorem repeats_iff (hsize : f.rowBytes * f.yres = imgSize) (junk : ℕ → UInt8) :
    f.Repeats junk ↔ ∀ k < f.yres,
      rowbufAfter f.memory imgSize f.rowBytes 0 ((List.range f.rowBytes).map junk) k =
        f.row (f.yres - 1 - k) := by
  have hypos : 0 < f.yres := f.yres_pos
  have hfirst := offset_eq hsize (Nat.zero_le f.yres)
  rw [Nat.sub_zero] at hfirst
  have hsecond := offset_eq hsize (Nat.succ_le_of_lt hypos)
  rw [Nat.add_sub_cancel] at hsecond
  constructor
  · intro h k
    induction k using Nat.twoStepInduction with
    | zero =>
      intro _
      rw [rowbufAfter, hfirst]
      exact h.last
    | one =>
      intro hk
      rw [rowbufAfter, rowbufAfter, hfirst, h.last, hsecond]
      exact h.lastButOne hk
    | more k _ ih =>
      intro hk
      have hrow : f.yres - 1 - (k + 1 + 1) + 2 = f.yres - 1 - k := by omega
      rw [rowbufAfter, ih (by omega), readRow_late hsize hk (by omega), ← hrow]
      exact h.rows _ (by omega)
  · intro h
    refine ⟨fun r hr => ?_, ?_, fun hy => ?_⟩
    · obtain ⟨k, hk⟩ : ∃ k, f.yres = k + 3 + r := ⟨f.yres - 3 - r, by omega⟩
      have hbuf := h (k + 2) (by omega)
      rw [rowbufAfter, h (k + 1) (by omega), readRow_late hsize (by omega) (by omega)] at hbuf
      have hrow : f.yres - 1 - k = r + 2 := by omega
      have hrow' : f.yres - 1 - (k + 2) = r := by omega
      rwa [hrow, hrow'] at hbuf
    · have hbuf := h 0 hypos
      rwa [rowbufAfter, hfirst] at hbuf
    · have hbuf := h 1 hy
      have hbuf₀ := h 0 hypos
      rw [rowbufAfter, hbuf₀, hsecond] at hbuf
      exact hbuf

/-- What is written for a screen of the size of a Kindle 3 screen, row by row. -/
theorem isScreenshot_iff (hsize : f.rowBytes * f.yres = imgSize) {rows : List UInt8}
    (hlen : rows.length = imgSize) :
    f.IsScreenshot (magichdr ++ (record (headerFields f.xres f.yres f.bpp imgSize) ++
        (colortab ++ rows))) ↔
      ∀ k < f.yres, (rows.drop (k * f.rowBytes)).take f.rowBytes = f.row (f.yres - 1 - k) := by
  have hx : uint32 f.xres = f.xres := uint32_natCast f.info.xres.toNat_lt
  have hy : uint32 f.yres = f.yres := uint32_natCast f.info.yres.toNat_lt
  have hbpp : uint32 f.bpp = f.bpp := uint32_natCast f.info.bitsPerPixel.toNat_lt
  have hinfo := info_headers f.xres f.yres imgSize f.uint32_bpp_lt (colortab ++ rows)
  rw [hx, hy, hbpp] at hinfo
  have hfile := length_file f.xres f.yres f.bpp imgSize rows
  rw [hlen] at hfile
  have hrow : (f.xres * f.bpp + 31) / 32 * 4 = f.rowBytes := by
    have haligned : 32 ∣ f.xres * f.bpp := f.aligned
    have hmul := f.rowBytes_mul
    omega
  have hyle : f.yres ≤ imgSize := hsize ▸ Nat.le_mul_of_pos_left _ f.rowBytes_pos
  have hmax : imgSize < 2 ^ 31 := by decide
  constructor
  · rintro ⟨i, hi, -, -, -, -, -, hstored⟩ k hk
    obtain rfl := Option.some.inj (hinfo.symm.trans hi)
    have hk' := hstored k hk
    simp only [Bmp.storedRow, Bmp.Info.rowBytes, hrow, drop_file] at hk'
    exact hk'
  · intro h
    refine ⟨_, hinfo, ⟨rfl, rfl, rfl, f.yres_pos, hyle.trans_lt hmax⟩, rfl, rfl, rfl, hfile.symm,
      fun k hk => ?_⟩
    simp only [Bmp.storedRow, Bmp.Info.rowBytes, hrow, drop_file]
    exact h k hk

/-- **When a screenshot is the screen.** Exactly when the screen is of the size of a
Kindle 3 screen, every second row of it is the same, and what lies behind it happens to
be its last two rows. -/
theorem screenshot_iff (f : FbScreen) (junk : ℕ → UInt8) :
    (∃ file, doScreenshot f.node true junk = some (0, some file) ∧ f.IsScreenshot file) ↔
      f.rowBytes * f.yres = imgSize ∧ f.Repeats junk := by
  constructor
  · rintro ⟨file, hshot, hscreen⟩
    obtain ⟨imgsize, rows, rfl, hsize⟩ := size_of_doScreenshot hshot
    have hrows : rows.length = imgSize := by
      obtain ⟨i, hi, -, -, -, -, hlen, -⟩ := hscreen
      have hsmall := f.uint32_bpp_lt
      rw [← f.int32_bpp] at hsmall
      rw [info_headers _ _ _ hsmall, Option.some_inj] at hi
      subst hi
      exact Nat.add_left_cancel (hlen.trans (length_file _ _ _ _ rows)).symm
    have hsize := hsize hrows
    obtain ⟨rows, hshot', hlen, hk⟩ := doScreenshot_eq hsize junk
    have hfile := Option.some.inj (Prod.mk.inj (Option.some.inj (hshot.symm.trans hshot'))).2
    rw [hfile] at hscreen
    refine ⟨hsize, (repeats_iff hsize junk).mpr fun k hlt => ?_⟩
    rw [← hk k hlt]
    exact (isScreenshot_iff hsize hlen).mp hscreen k hlt
  · rintro ⟨hsize, hrepeats⟩
    obtain ⟨rows, hshot, hlen, hk⟩ := doScreenshot_eq hsize junk
    refine ⟨_, hshot, (isScreenshot_iff hsize hlen).mpr fun k hlt => ?_⟩
    rw [hk k hlt]
    exact (repeats_iff hsize junk).mp hrepeats k hlt

/-- Eight pixels by two, of two shades. -/
def small : FbScreen where
  info := ⟨8, 2, 4⟩
  memory := [0x11, 0x11, 0x11, 0x11, 0x22, 0x22, 0x22, 0x22]
  xres_pos := by decide
  yres_pos := by decide
  depth := by decide
  aligned := by decide
  holds := by decide

/-- The file has nothing of the screen, and not the size it declares. -/
theorem not_screenshot_small :
    ∃ file, doScreenshot small.node true (fun _ => 0) = some (0, some file) ∧
      ¬ small.IsScreenshot file ∧ file.drop 118 = List.replicate 8 0 := by
  have hshot : (doScreenshot small.node true fun _ => 0).map (fun r =>
      (r.1, r.2.map fun file => ((Bmp.info file).map Bmp.Info.fileSize, file.length, file.drop 118))) =
      some (0, some (some 240118, 126, List.replicate 8 0)) := by decide +kernel
  obtain ⟨⟨rc, image⟩, hrun, hread⟩ := Option.map_eq_some_iff.mp hshot
  obtain ⟨rfl, himage⟩ := Prod.mk.inj hread
  obtain ⟨file, rfl, hfile⟩ := Option.map_eq_some_iff.mp himage
  simp only [Prod.mk.injEq] at hfile
  obtain ⟨hdeclared, hlen, hrows⟩ := hfile
  refine ⟨file, hrun, ?_, hrows⟩
  rintro ⟨i, hi, -, -, -, -, hsize, -⟩
  rw [hi, Option.map_some, Option.some_inj, hsize, hlen] at hdeclared
  exact absurd hdeclared (by decide)

end FbScreen

end Legacy
end Launchpad
