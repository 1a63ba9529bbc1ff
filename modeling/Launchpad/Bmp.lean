/-
# Reading a BMP file

What a reader of uncompressed BMP files of four bits a pixel makes of the bytes
of one: the fields of the two headers, the palette behind them, and rows from the
bottom up, each filled up to a multiple of four bytes, with the left pixel of a
byte in its high half.
-/
import Launchpad.Bytes

namespace Bmp

open Bytes

/-- The fields of the headers that say how to read the file. -/
structure Info where
  fileSize : ℕ
  dataOffset : ℕ
  headerSize : ℕ
  width : ℕ
  height : ℕ
  planes : ℕ
  bitCount : ℕ
  compression : ℕ
  colorsUsed : ℕ
  deriving DecidableEq

/-- The headers of a file that starts with `BM`. -/
def info (file : List UInt8) : Option Info := do
  let magic ← field file 0 2
  let fileSize ← field file 2 4
  let dataOffset ← field file 10 4
  let headerSize ← field file 14 4
  let width ← field file 18 4
  let height ← field file 22 4
  let planes ← field file 26 2
  let bitCount ← field file 28 2
  let compression ← field file 30 4
  let colorsUsed ← field file 46 4
  if magic = 0x4D42 then
    return { fileSize, dataOffset, headerSize, width, height, planes, bitCount, compression, colorsUsed }
  else none

theorem magic_append (rest : List UInt8) : field ([0x42, 0x4D] ++ rest) 0 2 = some 0x4D42 := by
  have hlen : 0 + 2 ≤ ([0x42, 0x4D] ++ rest).length := by
    rw [List.length_append]
    exact Nat.le_add_right 2 _
  have hletters : (([0x42, 0x4D] ++ rest).drop 0).take 2 = [0x42, 0x4D] := rfl
  rw [field, if_pos hlen, hletters]
  decide

/-- The headers from their fields, each at its offset. -/
theorem info_of_fields {file : List UInt8} (i : Info) (hmagic : field file 0 2 = some 0x4D42)
    (hsize : field file 2 4 = some i.fileSize) (hoffset : field file 10 4 = some i.dataOffset)
    (hheader : field file 14 4 = some i.headerSize) (hwidth : field file 18 4 = some i.width)
    (hheight : field file 22 4 = some i.height) (hplanes : field file 26 2 = some i.planes)
    (hbits : field file 28 2 = some i.bitCount) (hcompression : field file 30 4 = some i.compression)
    (hcolors : field file 46 4 = some i.colorsUsed) : info file = some i := by
  simp only [info, hmagic, hsize, hoffset, hheader, hwidth, hheight, hplanes, hbits, hcompression,
    hcolors, Option.bind_eq_bind, Option.bind_some, Option.pure_def, if_true]

/-- Four bits a pixel, uncompressed; a height with its sign bit would count rows
from the top. -/
def Info.Readable (i : Info) : Prop :=
  i.headerSize = 40 ∧ i.planes = 1 ∧ i.bitCount = 4 ∧ i.compression = 0 ∧ i.height < 2 ^ 31

instance (i : Info) : Decidable i.Readable := inferInstanceAs (Decidable (_ ∧ _))

structure Color where
  blue : UInt8
  green : UInt8
  red : UInt8
  deriving DecidableEq

/-- The colours of the palette; without a number there are as many as pixels can have. -/
def Info.colors (i : Info) : ℕ := if i.colorsUsed = 0 then 16 else i.colorsUsed

/-- A colour of the palette, which is behind the headers. -/
def color (file : List UInt8) (i : Info) (index : ℕ) : Option Color :=
  if index < i.colors then
    match file[14 + i.headerSize + (index * 4 + 0)]?, file[14 + i.headerSize + (index * 4 + 1)]?,
      file[14 + i.headerSize + (index * 4 + 2)]? with
    | some blue, some green, some red => some ⟨blue, green, red⟩
    | _, _, _ => none
  else none

/-- The bytes of a row. -/
def Info.stride (i : Info) : ℕ := (i.width * 4 + 31) / 32 * 4

/-- Uncompressed, with rows from the bottom up. -/
structure Info.BottomUp (i : Info) : Prop where
  headerSize_eq : i.headerSize = 40
  planes_eq : i.planes = 1
  compression_eq : i.compression = 0
  height_pos : 0 < i.height
  height_lt : i.height < 2 ^ 31

/-- The bytes of a row of any depth. -/
def Info.rowBytes (i : Info) : ℕ := (i.width * i.bitCount + 31) / 32 * 4

/-- A row as it is stored, the lowest first. -/
def storedRow (file : List UInt8) (i : Info) (k : ℕ) : List UInt8 :=
  (file.drop (i.dataOffset + k * i.rowBytes)).take i.rowBytes

/-- The palette index of a pixel; row 0 is the top one. -/
def index (file : List UInt8) (i : Info) (x y : ℕ) : Option ℕ :=
  (file[i.dataOffset + ((i.height - 1 - y) * i.stride + x / 2)]?).map fun byte =>
    if x % 2 = 0 then (byte >>> (4 : UInt8)).toNat else (byte &&& (0x0F : UInt8)).toNat

/-- The colour of a pixel. -/
def pixel (file : List UInt8) (x y : ℕ) : Option Color := do
  let i ← info file
  if i.Readable ∧ x < i.width ∧ y < i.height then (index file i x y).bind (color file i) else none

end Bmp
