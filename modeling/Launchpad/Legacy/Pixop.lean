/-
# Rectangles of pixels in the legacy program

`src/pixop.c`. A pixmap has two pixels a byte, its rows begin at full bytes. Filling
and copying round the column down to a full byte, clip the rectangle to the pixmap
and then go row by row with `memset` or `memcpy`. Nothing outside a surface is
touched, and what comes out is one picture laid over another (`Pasted`), so that a
block taken out at an even place and put back there leaves everything as it was.

The arithmetic of `int` is that of the integers: sums that overflow are left out, and
so are null pointers. Two pixmaps have surfaces of their own.
-/
import Mathlib.Data.Finset.Prod
import Mathlib.Order.Interval.Finset.Nat
import Launchpad.Blocks

namespace Launchpad
namespace Legacy

/-- `pixmap_t`, with the bytes its `surf` points at. -/
structure Pixmap where
  width : ℕ
  height : ℕ
  surf : Vector UInt8 (height * ((width + 1) / 2))

namespace Pixmap

/-- The width in bytes. -/
abbrev stride (p : Pixmap) : ℕ := (p.width + 1) / 2

end Pixmap

open Blocks

/-- `bx &= ~1`. -/
def even (bx : ℤ) : ℤ := bx / 2 * 2

/-- What is left of a stretch after clipping: the elements cut off before it, where it
begins, its length. -/
structure Clip where
  skip : ℤ
  start : ℤ
  count : ℤ

/-- `n` elements from `b` on, clipped to `0` below and to `len` above. -/
def clip (b n len : ℤ) : Clip :=
  let s : Clip := if b < 0 then ⟨-b, 0, n + b⟩ else ⟨0, b, n⟩
  if s.start + s.count > len then { s with count := len - s.start } else s

/-- The byte of two pixels of the color: `color &= 0x0F; color |= (color << 4)`. -/
def colorByte (color : ℤ) : UInt8 :=
  let color := (color % 16).toNat
  UInt8.ofNat (color ||| color <<< 4)

/-- `pix_fill`, with the number of pixels filled. -/
def pixFill (dst : Pixmap) (bx by' wd ht color : ℤ) : Option (Pixmap × ℤ) :=
  let cols := clip (even bx) wd dst.width
  let rows := clip by' ht dst.height
  if cols.count ≤ 0 ∨ rows.count ≤ 0 then some (dst, 0)
  else
    let fillStride := (cols.count + 1) / 2
    (fillRows dst.stride (colorByte color) fillStride.toNat rows.count.toNat dst.surf
      (rows.start * dst.stride + cols.start / 2) 0).map
      fun r => ({ dst with surf := r.1 }, r.2 * 2)

/-- `pix_blt`, with the number of pixels transferred. -/
def pixBlt (dst : Pixmap) (bx by' : ℤ) (src : Pixmap) : Option (Pixmap × ℤ) :=
  let cols := clip (even bx / 2) src.stride dst.stride
  let rows := clip by' src.height dst.height
  if cols.count ≤ 0 ∨ rows.count ≤ 0 then some (dst, 0)
  else
    (copyRows dst.stride src.stride src.surf cols.count.toNat rows.count.toNat dst.surf
      (rows.start * dst.stride + cols.start) (rows.skip * src.stride + cols.skip) 0).map
      fun r => ({ dst with surf := r.1 }, r.2 * 2)

/-- `pixmap_xtract`, with the number of pixels transferred. -/
def pixmapXtract (dst : Pixmap) (bx by' : ℤ) (src : Pixmap) : Option (Pixmap × ℤ) :=
  if bx < 0 ∨ by' < 0 then some (dst, 0)
  else
    let bx := even bx / 2
    let nBytes : ℤ := if dst.stride > src.stride - bx then src.stride - bx else dst.stride
    let nLines : ℤ := if dst.height ≤ src.height - by' then dst.height else src.height - by'
    if nBytes ≤ 0 ∨ nLines ≤ 0 then some (dst, 0)
    else
      (copyRows dst.stride src.stride src.surf nBytes.toNat nLines.toNat dst.surf 0
        (by' * src.stride + bx) 0).map
        fun r => ({ dst with surf := r.1 }, r.2 * 2)

/-- `pixbuf_alloc`: all bytes zero. -/
def pixbufAlloc (w h : ℕ) : Pixmap := ⟨w, h, .replicate _ 0⟩

namespace Pixmap

/-- The byte in a row and a byte column, if they are inside. -/
def byteAt (p : Pixmap) (row col : ℤ) : Option UInt8 :=
  if (0 ≤ row ∧ row < p.height) ∧ 0 ≤ col ∧ col < p.stride then
    p.surf[(row * p.stride + col).toNat]?
  else none

/-- The rows and byte columns that are inside. -/
def cells (p : Pixmap) : Finset (ℕ × ℕ) := Finset.range p.height ×ˢ Finset.range p.stride

/-- `dst'` is `dst` with `src` laid over it, the first byte of `src` at `(row, col)`, and
`n` is twice the number of bytes that came from `src`. -/
structure Pasted (dst src : Pixmap) (row col : ℤ) (dst' : Pixmap) (n : ℤ) : Prop where
  width_eq : dst'.width = dst.width
  height_eq : dst'.height = dst.height
  byteAt_eq : ∀ r c, dst'.byteAt r c =
    (dst.byteAt r c).map fun byte => (src.byteAt (r - row) (c - col)).getD byte
  count_eq : n = 2 * (dst.cells.filter fun p => (src.byteAt (p.1 - row) (p.2 - col)).isSome).card

variable {p p' dst src : Pixmap} {r c row col : ℤ}

/-! ### Bytes of a pixmap -/

theorem byteAt_natCast {r c : ℕ} (hr : r < p.height) (hc : c < p.stride) :
    p.byteAt r c = p.surf[r * p.stride + c]? := by
  have hindex : ((r : ℤ) * p.stride + c).toNat = r * p.stride + c := by
    rw [← Nat.cast_mul, ← Nat.cast_add, Int.toNat_natCast]
  rw [byteAt, if_pos (by omega), hindex]

theorem index_lt {r c : ℕ} (hr : r < p.height) (hc : c < p.stride) :
    r * p.stride + c < p.height * p.stride := by
  have hrow : (r + 1) * p.stride ≤ p.height * p.stride := Nat.mul_le_mul_right _ hr
  rw [Nat.succ_mul] at hrow
  omega

theorem byteAt_isSome :
    (p.byteAt r c).isSome = true ↔ (0 ≤ r ∧ r < p.height) ∧ 0 ≤ c ∧ c < p.stride := by
  constructor
  · intro h
    by_contra hout
    rw [byteAt, if_neg hout] at h
    exact absurd h (by decide)
  · intro h
    lift r to ℕ using h.1.1
    lift c to ℕ using h.2.1
    have hr : r < p.height := by omega
    have hc : c < p.stride := by omega
    rw [byteAt_natCast hr hc, Vector.getElem?_eq_getElem (index_lt hr hc)]
    rfl

theorem byteAt_eq_none (h : ¬ ((0 ≤ r ∧ r < p.height) ∧ 0 ≤ c ∧ c < p.stride)) :
    p.byteAt r c = none := if_neg h

/-- It is enough to say what becomes of the bytes inside. -/
theorem byteAt_map (f : ℤ → ℤ → UInt8 → UInt8) (surf : Vector UInt8 (p.height * p.stride))
    (h : ∀ x y : ℕ, y < p.height → x < p.stride →
      surf[y * p.stride + x]? = (p.surf[y * p.stride + x]?).map (f y x)) (r c : ℤ) :
    byteAt { p with surf := surf } r c = (p.byteAt r c).map (f r c) := by
  by_cases hin : (0 ≤ r ∧ r < p.height) ∧ 0 ≤ c ∧ c < p.stride
  · obtain ⟨⟨hr0, hr⟩, hc0, hc⟩ := hin
    lift r to ℕ using hr0
    lift c to ℕ using hc0
    have hr' : r < p.height := by omega
    have hc' : c < p.stride := by omega
    rw [byteAt_natCast hr' hc', byteAt_natCast (p := { p with surf := surf }) hr' hc']
    exact h c r hr' hc'
  · rw [byteAt_eq_none hin]
    exact byteAt_eq_none hin

/-- Nothing changes if no byte inside does. -/
theorem byteAt_map_self {f : UInt8 → UInt8}
    (h : (0 ≤ r ∧ r < p.height) ∧ 0 ≤ c ∧ c < p.stride → f = id) :
    p.byteAt r c = (p.byteAt r c).map f := by
  by_cases hin : (0 ≤ r ∧ r < p.height) ∧ 0 ≤ c ∧ c < p.stride
  · rw [h hin, Option.map_id, id]
  · rw [byteAt_eq_none hin]
    rfl

/-- Pixmaps of one size are equal if all their bytes are. -/
theorem eq_of_byteAt (hw : p'.width = p.width) (hh : p'.height = p.height)
    (h : ∀ r c, p'.byteAt r c = p.byteAt r c) : p' = p := by
  obtain ⟨w, ht, surf⟩ := p
  obtain ⟨w', ht', surf'⟩ := p'
  obtain rfl : w' = w := hw
  obtain rfl : ht' = ht := hh
  refine congrArg (Pixmap.mk w' ht') (Vector.ext fun i hi => ?_)
  have hpos : 0 < (w' + 1) / 2 := Nat.pos_of_mul_pos_left (Nat.zero_lt_of_lt hi)
  have hrow : i / ((w' + 1) / 2) < ht' := Nat.div_lt_of_lt_mul (by rwa [Nat.mul_comm])
  have hcol : i % ((w' + 1) / 2) < (w' + 1) / 2 := Nat.mod_lt i hpos
  have hbyte := h (i / ((w' + 1) / 2) : ℕ) (i % ((w' + 1) / 2) : ℕ)
  rw [byteAt_natCast hrow hcol, byteAt_natCast hrow hcol] at hbyte
  have hindex : i / ((w' + 1) / 2) * ((w' + 1) / 2) + i % ((w' + 1) / 2) = i := Nat.div_add_mod' i _
  simp only [stride, hindex] at hbyte
  rwa [Vector.getElem?_eq_getElem hi, Vector.getElem?_eq_getElem hi, Option.some_inj] at hbyte

/-! ### One picture over another -/

theorem even_div_two (bx : ℤ) : even bx / 2 = bx / 2 := Int.mul_ediv_cancel _ (by decide)

/-- Clipping cuts `b … b + n` down to `0 … len`. -/
theorem clip_eq (b n len : ℤ) :
    clip b n len = ⟨max 0 (-b), max 0 b, min (b + n) len - max 0 b⟩ := by
  unfold clip
  rcases lt_or_ge b 0 with hb | hb
  · rw [if_pos hb, max_eq_right (by omega), max_eq_left hb.le, sub_zero]
    dsimp only
    split_ifs with hlen
    · rw [min_eq_right (by omega), sub_zero]
    · rw [min_eq_left (by omega), add_comm]
  · rw [if_neg (not_lt.mpr hb), max_eq_left (by omega), max_eq_right hb]
    dsimp only
    split_ifs with hlen
    · rw [min_eq_right (by omega)]
    · rw [min_eq_left (by omega), add_sub_cancel_left]

/-- The bytes covered form a rectangle. -/
theorem card_covered (dst src : Pixmap) (row col : ℤ) :
    (dst.cells.filter fun p => (src.byteAt (p.1 - row) (p.2 - col)).isSome).card =
      (min (row + src.height) dst.height - max 0 row).toNat *
        (min (col + src.stride) dst.stride - max 0 col).toNat := by
  have hrect : dst.cells.filter (fun p => (src.byteAt (p.1 - row) (p.2 - col)).isSome) =
      Finset.Ico (max 0 row).toNat (min (row + src.height) dst.height).toNat ×ˢ
        Finset.Ico (max 0 col).toNat (min (col + src.stride) dst.stride).toNat := by
    ext ⟨r, c⟩
    rw [Finset.mem_filter, byteAt_isSome, cells, Finset.mem_product, Finset.mem_product]
    simp only [Finset.mem_Ico, Finset.mem_range]
    omega
  have hsub : ∀ a b : ℤ, 0 ≤ a → b.toNat - a.toNat = (b - a).toNat := by omega
  rw [hrect, Finset.card_product, Nat.card_Ico, Nat.card_Ico, hsub _ _ (le_max_left 0 row),
    hsub _ _ (le_max_left 0 col)]

/-- Nothing is copied where nothing would be covered. -/
theorem pasted_of_empty (h : min (col + src.stride) dst.stride - max 0 col ≤ 0 ∨
    min (row + src.height) dst.height - max 0 row ≤ 0) : Pasted dst src row col dst 0 := by
  refine ⟨rfl, rfl, fun r c => byteAt_map_self fun hin => ?_, ?_⟩
  · have hout : src.byteAt (r - row) (c - col) = none := byteAt_eq_none (by omega)
    rw [hout]
    rfl
  · rw [card_covered]
    rcases h with h | h
    · rw [Int.toNat_of_nonpos h, Nat.mul_zero]
      rfl
    · rw [Int.toNat_of_nonpos h, Nat.zero_mul]
      rfl

/-- Copied row by row, clipped to both, `src` is laid over `dst`. -/
theorem exists_pasted (dst src : Pixmap) (row col : ℤ)
    (hcols : 0 < min (col + src.stride) dst.stride - max 0 col)
    (hrows : 0 < min (row + src.height) dst.height - max 0 row) :
    ∃ surf n, copyRows dst.stride src.stride src.surf
        (min (col + src.stride) dst.stride - max 0 col).toNat
        (min (row + src.height) dst.height - max 0 row).toNat dst.surf
        (max 0 row * dst.stride + max 0 col) (max 0 (-row) * src.stride + max 0 (-col)) 0 =
        some (surf, n) ∧
      Pasted dst src row col { dst with surf := surf } (n * 2) := by
  have hcard := card_covered dst src row col
  obtain ⟨x, hx⟩ := Int.eq_ofNat_of_zero_le (le_max_left 0 col)
  obtain ⟨y, hy⟩ := Int.eq_ofNat_of_zero_le (le_max_left 0 row)
  obtain ⟨sx, hsx⟩ := Int.eq_ofNat_of_zero_le (le_max_left 0 (-col))
  obtain ⟨sy, hsy⟩ := Int.eq_ofNat_of_zero_le (le_max_left 0 (-row))
  generalize hn : (min (col + src.stride) dst.stride - max 0 col).toNat = n at hcard ⊢
  generalize hlines : (min (row + src.height) dst.height - max 0 row).toNat = lines at hcard ⊢
  have hsrc : ∀ i < lines, sy * src.stride + sx + i * src.stride + n ≤ src.height * src.stride := by
    intro i hi
    have hrow : (sy + i + 1) * src.stride ≤ src.height * src.stride :=
      Nat.mul_le_mul_right _ (by omega)
    rw [Nat.succ_mul, Nat.add_mul] at hrow
    omega
  have hxn : x + n ≤ dst.stride := by omega
  have hylines : y + lines ≤ dst.height := by omega
  obtain ⟨surf, hcopy, hsurf⟩ := copyRows_spec src.surf hxn lines dst.surf 0 hylines hsrc
  refine ⟨surf, 0 + lines * n, ?_, rfl, rfl,
    byteAt_map (fun r c byte => (src.byteAt (r - row) (c - col)).getD byte) surf fun c r hr hc => ?_, ?_⟩
  · rw [hx, hy, hsx, hsy]
    exact_mod_cast hcopy
  · rw [hsurf r c hc, Vector.getElem?_eq_getElem (index_lt hr hc)]
    by_cases hcov : (y ≤ r ∧ r < y + lines) ∧ x ≤ c ∧ c < x + n
    · have hr₁ : (r : ℤ) - row = (sy + (r - y) : ℕ) := by omega
      have hc₁ : (c : ℤ) - col = (sx + (c - x) : ℕ) := by omega
      have hr₂ : sy + (r - y) < src.height := by omega
      have hc₂ : sx + (c - x) < src.stride := by omega
      have hplace : sy * src.stride + sx + (r - y) * src.stride + (c - x) =
          (sy + (r - y)) * src.stride + (sx + (c - x)) := by ring
      rw [if_pos hcov, hr₁, hc₁, byteAt_natCast hr₂ hc₂, hplace,
        Vector.getElem?_eq_getElem (index_lt hr₂ hc₂)]
      rfl
    · have hout : src.byteAt (r - row) (c - col) = none := byteAt_eq_none (by omega)
      rw [if_neg hcov, hout]
      rfl
  · rw [hcard]
    push_cast
    ring

/-- Blitting at `(bx, by)` lays the source over the destination there. -/
theorem exists_pixBlt (dst src : Pixmap) (bx by' : ℤ) :
    ∃ dst' n, pixBlt dst bx by' src = some (dst', n) ∧ Pasted dst src by' (bx / 2) dst' n := by
  unfold pixBlt
  rw [clip_eq, clip_eq, even_div_two]
  dsimp only
  split_ifs with hempty
  · exact ⟨dst, 0, rfl, pasted_of_empty hempty⟩
  · rw [not_or, not_le, not_le] at hempty
    obtain ⟨surf, n, hcopy, hpasted⟩ := exists_pasted dst src by' (bx / 2) hempty.1 hempty.2
    rw [hcopy]
    exact ⟨_, _, rfl, hpasted⟩

/-- Extracting at `(bx, by)` lays the source over the destination the other way. -/
theorem exists_pixmapXtract (dst src : Pixmap) {bx by' : ℤ} (hx : 0 ≤ bx) (hy : 0 ≤ by') :
    ∃ dst' n, pixmapXtract dst bx by' src = some (dst', n) ∧
      Pasted dst src (-by') (-(bx / 2)) dst' n := by
  have hcol : max 0 (-(bx / 2)) = 0 := max_eq_left (by omega)
  have hrow : max 0 (-by') = 0 := max_eq_left (by omega)
  have hbytes : (if (dst.stride : ℤ) > src.stride - bx / 2 then src.stride - bx / 2 else dst.stride) =
      min (-(bx / 2) + src.stride) dst.stride - max 0 (-(bx / 2)) := by
    split_ifs <;> omega
  have hlines : (if (dst.height : ℤ) ≤ src.height - by' then (dst.height : ℤ) else src.height - by') =
      min (-by' + src.height) dst.height - max 0 (-by') := by
    split_ifs <;> omega
  unfold pixmapXtract
  rw [if_neg (by omega), even_div_two]
  dsimp only
  rw [hbytes, hlines]
  split_ifs with hempty
  · exact ⟨dst, 0, rfl, pasted_of_empty hempty⟩
  · rw [not_or, not_le, not_le] at hempty
    obtain ⟨surf, n, hcopy, hpasted⟩ := exists_pasted dst src (-by') (-(bx / 2)) hempty.1 hempty.2
    rw [hcol, hrow, neg_neg, neg_neg, max_eq_right hy, max_eq_right (by omega), zero_mul,
      zero_add] at hcopy
    rw [hcol, hrow, hcopy]
    exact ⟨_, _, rfl, hpasted⟩

/-- The bytes of the rectangle that are inside are filled. -/
theorem exists_pixFill (dst : Pixmap) (bx by' wd ht color : ℤ) :
    ∃ dst' n, pixFill dst bx by' wd ht color = some (dst', n) ∧
      dst'.width = dst.width ∧ dst'.height = dst.height ∧
      ∀ r c, dst'.byteAt r c = (dst.byteAt r c).map fun byte =>
        if (by' ≤ r ∧ r < by' + ht) ∧ bx / 2 ≤ c ∧ c < (even bx + wd + 1) / 2 then colorByte color
        else byte := by
  unfold pixFill
  rw [clip_eq, clip_eq]
  dsimp only
  have heven : even bx = bx / 2 * 2 := rfl
  have hstride : dst.stride = (dst.width + 1) / 2 := rfl
  split_ifs with hempty
  · refine ⟨dst, 0, rfl, rfl, rfl, fun r c => byteAt_map_self fun hin => ?_⟩
    have hout : ¬ ((by' ≤ r ∧ r < by' + ht) ∧ bx / 2 ≤ c ∧ c < (even bx + wd + 1) / 2) := by omega
    simp only [if_neg hout]
    rfl
  · rw [not_or, not_le, not_le] at hempty
    obtain ⟨x, hx⟩ := Int.eq_ofNat_of_zero_le (a := max 0 (even bx) / 2) (by omega)
    obtain ⟨y, hy⟩ := Int.eq_ofNat_of_zero_le (le_max_left 0 by')
    generalize hn : ((min (even bx + wd) dst.width - max 0 (even bx) + 1) / 2).toNat = n
    generalize hlines : (min (by' + ht) dst.height - max 0 by').toNat = lines
    have hxn : x + n ≤ dst.stride := by omega
    have hylines : y + lines ≤ dst.height := by omega
    have hsrc : ∀ i < lines, 0 + i * 0 + n ≤ n := fun _ _ => by omega
    obtain ⟨surf, hcopy, hsurf⟩ :=
      copyRows_spec (Vector.replicate n (colorByte color)) hxn lines dst.surf 0 hylines hsrc
    refine ⟨{ dst with surf := surf }, (0 + lines * n : ℕ) * 2, ?_, rfl, rfl,
      byteAt_map (fun r c byte => if (by' ≤ r ∧ r < by' + ht) ∧ bx / 2 ≤ c ∧
        c < (even bx + wd + 1) / 2 then colorByte color else byte) surf fun c r hr hc => ?_⟩
    · have hfill : fillRows dst.stride (colorByte color) n lines dst.surf
          (max 0 by' * dst.stride + max 0 (even bx) / 2) 0 = some (surf, 0 + lines * n) := by
        rw [fillRows_eq, hx, hy]
        exact_mod_cast hcopy
      rw [hfill]
      rfl
    · rw [hsurf r c hc, Vector.getElem?_eq_getElem (index_lt hr hc)]
      have hsame : ((y ≤ r ∧ r < y + lines) ∧ x ≤ c ∧ c < x + n) ↔
          (by' ≤ r ∧ (r : ℤ) < by' + ht) ∧ bx / 2 ≤ c ∧ (c : ℤ) < (even bx + wd + 1) / 2 := by
        omega
      simp only [hsame, Option.map_some]
      split_ifs with hcov
      · have hc₁ : c - x < n := by omega
        simp [hc₁]
      · rfl

/-- A block that was taken out of a picture, laid over it where it was taken. -/
theorem Pasted.back {n m : ℤ} (h : Pasted dst src (-row) (-col) p n) (h' : Pasted src p row col p' m) :
    p' = src := by
  refine eq_of_byteAt h'.width_eq h'.height_eq fun r c => ?_
  rw [h'.byteAt_eq, h.byteAt_eq, sub_neg_eq_add, sub_neg_eq_add, sub_add_cancel, sub_add_cancel]
  cases src.byteAt r c with
  | none => rfl
  | some byte => cases dst.byteAt (r - row) (c - col) <;> rfl

/-- **Clipping of rectangles.** Whatever the place and the size, negative or too large,
nothing outside a surface is read or written. What is blitted lies over the
destination where it should and what is extracted is what was there, both count the
bytes copied twice, and a block put back where it was extracted changes nothing. -/
theorem rectangles_clipped (dst src : Pixmap) (bx by' wd ht color : ℤ) :
    (pixFill dst bx by' wd ht color).isSome = true ∧
      (∃ dst' n, pixBlt dst bx by' src = some (dst', n) ∧ Pasted dst src by' (bx / 2) dst' n) ∧
      (bx < 0 ∨ by' < 0 → pixmapXtract dst bx by' src = some (dst, 0)) ∧
      (0 ≤ bx → 0 ≤ by' →
        ∃ dst' n, pixmapXtract dst bx by' src = some (dst', n) ∧
          Pasted dst src (-by') (-(bx / 2)) dst' n ∧
          ∃ m, pixBlt src bx by' dst' = some (src, m)) := by
  refine ⟨?_, exists_pixBlt dst src bx by', fun h => if_pos h, fun hx hy => ?_⟩
  · obtain ⟨dst', n, hfill, -⟩ := exists_pixFill dst bx by' wd ht color
    rw [hfill]
    rfl
  · obtain ⟨block, n, hblock, htaken⟩ := exists_pixmapXtract dst src hx hy
    obtain ⟨src', m, hput, hback⟩ := exists_pixBlt src block bx by'
    obtain rfl : src' = src := htaken.back hback
    exact ⟨block, n, hblock, htaken, m, hput⟩

theorem rectangles_clipped_block :
    ∃ block n, pixmapXtract (pixbufAlloc 4 2) 2 1 (pixbufAlloc 7 5) = some (block, n) ∧
      ∃ m, pixBlt (pixbufAlloc 7 5) 2 1 block = some (pixbufAlloc 7 5, m) := by
  obtain ⟨-, -, -, hblock⟩ := rectangles_clipped (pixbufAlloc 4 2) (pixbufAlloc 7 5) 2 1 0 0 0
  obtain ⟨block, n, hout, -, hback⟩ := hblock (by decide) (by decide)
  exact ⟨block, n, hout, hback⟩

end Pixmap
end Legacy
end Launchpad
