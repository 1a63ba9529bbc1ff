/-
# Screenshots on a full disk

`ScreenshotWriter` again, write by write, on a file that takes so many bytes. The
file gets the start of the screenshot that fits (`writeBmpTo_file`); the stream
knows of a write that failed, but `write_bmp` only looks at it once, after the
open, so a screenshot that has been cut off is not an error (`truncation_iff`).
-/
import Launchpad.OutStream
import Launchpad.ScreenshotWriter

namespace Launchpad

open Bytes

namespace ScreenshotWriter

variable {δ : Type*} [IDisplay δ]

/-- The writes of `write_headers`. -/
def headerChunks (width height stride : ℕ) : List (List UInt8) :=
  [0x42, 0x4D] :: (headerFields width height stride).map fun f => littleEndian f.1 f.2

def writeHeadersTo (file : OutStream UInt8) (width height stride : ℕ) : OutStream UInt8 :=
  (headerChunks width height stride).foldl OutStream.write file

def writePaletteTo (file : OutStream UInt8) : OutStream UInt8 :=
  (List.range 16).foldl (fun file i => file.write (paletteEntry i)) file

def writePixelRowsTo (file : OutStream UInt8) (d : δ) (width height stride : ℕ) : OutStream UInt8 :=
  (List.range (int32 height).toNat).reverse.foldl
    (fun file y => file.write (rowBuffer d width stride y)) file

/-- `write_bmp`: its result, and what it leaves of the file. -/
def writeBmpTo (isOpen : Bool) (file : OutStream UInt8) (d : δ) :
    Except Str Unit × OutStream UInt8 :=
  if !isOpen then (.error "Could not open destination file for BMP".toList, file)
  else
    let stride := strideOf (bounds d).width
    let file := writeHeadersTo file (bounds d).width (bounds d).height stride
    let file := writePaletteTo file
    let file := writePixelRowsTo file d (bounds d).width (bounds d).height stride
    (.ok (), file)

/-! ### What is written -/

/-- All writes of `write_bmp`. -/
def chunks (d : δ) : List (List UInt8) :=
  headerChunks (bounds d).width (bounds d).height (strideOf (bounds d).width) ++
    ((List.range 16).map paletteEntry ++
      (List.range (int32 (bounds d).height).toNat).reverse.map
        (rowBuffer d (bounds d).width (strideOf (bounds d).width)))

theorem writeBmpTo_eq (file : OutStream UInt8) (d : δ) :
    writeBmpTo true file d = (.ok (), (chunks d).foldl OutStream.write file) := by
  unfold chunks
  rw [List.foldl_append, List.foldl_append, List.foldl_map, List.foldl_map]
  rfl

/-- The complete file. -/
def bmpFile (d : δ) : List UInt8 :=
  writeHeaders (bounds d).width (bounds d).height (strideOf (bounds d).width) ++
    (writePalette ++
      writePixelRows d (bounds d).width (bounds d).height (strideOf (bounds d).width))

theorem writeBmp_eq (d : δ) : writeBmp true d = .ok (bmpFile d) := rfl

theorem flatten_chunks (d : δ) : (chunks d).flatten = bmpFile d := by
  unfold chunks headerChunks bmpFile
  rw [List.flatten_append, List.flatten_append, List.flatten_cons, ← List.flatMap_def,
    ← List.flatMap_def, ← List.flatMap_def]
  rfl

/-- A file with room for `k` bytes gets the first `k` bytes, and the stream is good
if they are all. -/
theorem writeBmpTo_file (d : δ) (k : ℕ) :
    (writeBmpTo true { room := k } d).2.written = (bmpFile d).take k ∧
      ((writeBmpTo true { room := k } d).2.good = true ↔ (bmpFile d).length ≤ k) := by
  have hwrite := OutStream.foldl_write (s := { room := k }) rfl (chunks d)
  rw [flatten_chunks, List.nil_append] at hwrite
  rw [writeBmpTo_eq]
  exact hwrite

/-! ### What is reported -/

/-- The result tells whether a file with room for `k` bytes is complete. -/
def ReportsTruncation (d : δ) (k : ℕ) : Prop :=
  (writeBmpTo true { room := k } d).1.isOk = true ↔ (bmpFile d).length ≤ k

/-- The result is ok whatever happens to the writes. -/
theorem reportsTruncation_iff (d : δ) (k : ℕ) : ReportsTruncation d k ↔ (bmpFile d).length ≤ k := by
  have hok : (writeBmpTo true { room := k } d).1.isOk = true := by
    rw [writeBmpTo_eq]
    rfl
  exact ⟨fun hreports => hreports.mp hok, fun hroom => iff_of_true hok hroom⟩

/-- **Screenshots that are cut off.** The file gets as much of the screenshot as
there is room for, and the result tells whether that is all of it if and only if
it is. -/
theorem truncation_iff (d : δ) (k : ℕ) :
    (writeBmpTo true { room := k } d).2.written = (bmpFile d).take k ∧
      (ReportsTruncation d k ↔ (bmpFile d).length ≤ k) :=
  ⟨(writeBmpTo_file d k).1, reportsTruncation_iff d k⟩

/-- The disk is full after the two letters. -/
theorem not_reportsTruncation_full : ¬ ∀ (d : MockDisplay) (k : ℕ), ReportsTruncation d k := by
  intro hall
  have hcut := (reportsTruncation_iff (MockDisplay.new ⟨3, 2, 4⟩) 2).mp (hall _ 2)
  revert hcut
  decide +kernel

end ScreenshotWriter
end Launchpad
