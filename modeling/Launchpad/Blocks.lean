/-
# Blocks of memory copied row by row

Memory of a fixed size that is read and written several bytes at a time at an
address, `none` where any of them lies outside. A loop of such copies whose
addresses go on by a stride each copies a rectangle of one picture into another:
if the rectangle lies in both, every byte in it is that of the source and the others
are what they were (`copyRows_spec`). Filling a rectangle is copying it from a row
that stays the same (`fillRows_eq`).
-/
import Mathlib.Algebra.Order.Group.Nat
import Mathlib.Tactic.Ring

namespace Blocks

variable {β : Type*} {size size' : ℕ}

/-- The `n` bytes from `p` on. -/
def read (b : Vector β size) (p : ℤ) (n : ℕ) : Option (List β) :=
  if 0 ≤ p ∧ p + n ≤ size then some ((b.toList.drop p.toNat).take n) else none

/-- The bytes are written from `p` on. -/
def write (b : Vector β size) (p : ℤ) (bytes : List β) : Option (Vector β size) :=
  if 0 ≤ p ∧ p + bytes.length ≤ size then
    some (.ofFn fun i => if p ≤ i then (bytes[i - p.toNat]?).getD (b.get i) else b.get i)
  else none

def memcpy (dst : Vector β size) (dstp : ℤ) (src : Vector β size') (srcp : ℤ) (n : ℕ) :
    Option (Vector β size) := (read src srcp n).bind (write dst dstp)

def memset (dst : Vector β size) (dstp : ℤ) (c : β) (n : ℕ) : Option (Vector β size) :=
  write dst dstp (List.replicate n c)

/-- Rows copied one after the other, with the number of bytes copied. -/
def copyRows (dstStride srcStride : ℤ) (src : Vector β size') (n : ℕ) :
    ℕ → Vector β size → ℤ → ℤ → ℕ → Option (Vector β size × ℕ)
  | 0, dst, _, _, count => some (dst, count)
  | lines + 1, dst, dstp, srcp, count =>
    (memcpy dst dstp src srcp n).bind fun dst =>
      copyRows dstStride srcStride src n lines dst (dstp + dstStride) (srcp + srcStride) (count + n)

/-- Rows filled one after the other, with the number of bytes filled. -/
def fillRows (dstStride : ℤ) (c : β) (n : ℕ) :
    ℕ → Vector β size → ℤ → ℕ → Option (Vector β size × ℕ)
  | 0, dst, _, count => some (dst, count)
  | lines + 1, dst, dstp, count =>
    (memset dst dstp c n).bind fun dst => fillRows dstStride c n lines dst (dstp + dstStride) (count + n)

/-! ### One row -/

theorem getElem?_write {b b' : Vector β size} {p : ℕ} {bytes : List β}
    (h : write b p bytes = some b') (i : ℕ) :
    b'[i]? = if p ≤ i ∧ i < p + bytes.length then bytes[i - p]? else b[i]? := by
  rw [write] at h
  split_ifs at h with hin
  obtain rfl := Option.some.inj h
  rw [Vector.getElem?_ofFn]
  by_cases hi : i < size
  · rw [dif_pos hi]
    have hcell : b.get ⟨i, hi⟩ = b[i] := rfl
    by_cases hin' : p ≤ i ∧ i < p + bytes.length
    · have hget : i - p < bytes.length := by omega
      rw [if_pos hin']
      simp [hin'.1, hget]
    · rw [if_neg hin']
      by_cases hp : p ≤ i
      · have hget : bytes.length ≤ i - p := by omega
        simp [hp, hget, hi, hcell]
      · simp [hp, hi, hcell]
  · have hout : ¬ (p ≤ i ∧ i < p + bytes.length) := by omega
    rw [dif_neg hi, if_neg hout]
    exact (Vector.getElem?_eq_none (by omega)).symm

theorem write_isSome (b : Vector β size) (p : ℕ) (bytes : List β) (h : p + bytes.length ≤ size) :
    ∃ b', write b p bytes = some b' := ⟨_, if_pos ⟨by omega, by omega⟩⟩

/-- A row of a picture of `height` rows is written: its bytes from column `x` on. -/
theorem write_row {height stride x y : ℕ} (b : Vector β (height * stride)) (bytes : List β)
    (hx : x + bytes.length ≤ stride) (hy : y < height) :
    ∃ b', write b ((y * stride + x : ℕ) : ℤ) bytes = some b' ∧ ∀ r c, c < stride →
      b'[r * stride + c]? =
        if r = y ∧ x ≤ c ∧ c < x + bytes.length then bytes[c - x]? else b[r * stride + c]? := by
  have hrow : (y + 1) * stride ≤ height * stride := Nat.mul_le_mul_right _ hy
  rw [Nat.succ_mul] at hrow
  obtain ⟨b', hb'⟩ := write_isSome b (y * stride + x) bytes (by omega)
  refine ⟨b', hb', fun r c hc => ?_⟩
  rw [getElem?_write hb']
  rcases lt_trichotomy r y with hr | rfl | hr
  · have hle : (r + 1) * stride ≤ y * stride := Nat.mul_le_mul_right _ hr
    rw [Nat.succ_mul] at hle
    rw [if_neg (by omega), if_neg (by omega)]
  · have hindex : r * stride + c - (r * stride + x) = c - x := by omega
    rw [hindex]
    refine if_congr ?_ rfl rfl
    omega
  · have hle : (y + 1) * stride ≤ r * stride := Nat.mul_le_mul_right _ hr
    rw [Nat.succ_mul] at hle
    rw [if_neg (by omega), if_neg (by omega)]

theorem read_eq {b : Vector β size} {p n : ℕ} (h : p + n ≤ size) :
    ∃ bytes, read b p n = some bytes ∧ bytes.length = n ∧ ∀ i < n, bytes[i]? = b[p + i]? := by
  refine ⟨_, if_pos ⟨by omega, by omega⟩, by simp; omega, fun i hi => ?_⟩
  rw [List.getElem?_take_of_lt hi, List.getElem?_drop, Int.toNat_natCast]
  simp

/-! ### Rectangles -/

/-- **A rectangle copied.** It starts at row `y` and column `x` of the destination, and
at `q` in the source. -/
theorem copyRows_spec {height stride srcStride x n : ℕ} (src : Vector β size')
    (hx : x + n ≤ stride) (lines : ℕ) : ∀ {y q : ℕ} (dst : Vector β (height * stride)) (count : ℕ),
    y + lines ≤ height → (∀ i < lines, q + i * srcStride + n ≤ size') →
    ∃ dst', copyRows stride srcStride src n lines dst ((y * stride + x : ℕ) : ℤ) q count =
        some (dst', count + lines * n) ∧
      ∀ r c, c < stride → dst'[r * stride + c]? =
        if (y ≤ r ∧ r < y + lines) ∧ x ≤ c ∧ c < x + n then src[q + (r - y) * srcStride + (c - x)]?
        else dst[r * stride + c]? := by
  induction lines with
  | zero =>
    intro y q dst count _ _
    refine ⟨dst, by simp [copyRows], fun r c _ => ?_⟩
    rw [if_neg (by omega)]
  | succ lines ih =>
    intro y q dst count hy hq
    have hfirst := hq 0 (by omega)
    rw [Nat.zero_mul, Nat.add_zero] at hfirst
    obtain ⟨bytes, hread, hlen, hbytes⟩ := read_eq (b := src) hfirst
    obtain ⟨dst₁, hwrite, hdst₁⟩ := write_row dst bytes (y := y) (by rwa [hlen])
      (by omega)
    have hrest : ∀ i < lines, q + srcStride + i * srcStride + n ≤ size' := fun i hi => by
      have h := hq (i + 1) (by omega)
      rw [Nat.succ_mul] at h
      omega
    obtain ⟨dst', hcopy, hdst'⟩ := ih (y := y + 1) dst₁ (count + n) (by omega) hrest
    refine ⟨dst', ?_, fun r c hc => ?_⟩
    · have hnext : ((y * stride + x : ℕ) : ℤ) + stride = (((y + 1) * stride + x : ℕ) : ℤ) := by
        push_cast
        ring
      have hcount : count + n + lines * n = count + (lines + 1) * n := by ring
      rw [copyRows, memcpy, hread, Option.bind_some, hwrite, Option.bind_some, hnext, ← hcount]
      exact hcopy
    · rw [hdst' r c hc, hdst₁ r c hc, hlen]
      by_cases hcol : x ≤ c ∧ c < x + n
      · rcases Nat.lt_trichotomy r y with hr | rfl | hr
        · rw [if_neg (by omega), if_neg (by omega), if_neg (by omega)]
        · rw [if_neg (by omega), if_pos ⟨rfl, hcol⟩, if_pos (by omega), hbytes (c - x) (by omega),
            Nat.sub_self, Nat.zero_mul, Nat.add_zero]
        · by_cases hlast : r < y + (lines + 1)
          · obtain ⟨k, rfl⟩ : ∃ k, r = y + 1 + k := ⟨r - (y + 1), by omega⟩
            have hk : y + 1 + k - y = k + 1 := by omega
            have hindex : q + srcStride + k * srcStride + (c - x) =
                q + (k + 1) * srcStride + (c - x) := by ring
            rw [if_pos (by omega), if_pos (by omega), hk, Nat.add_sub_cancel_left, hindex]
          · rw [if_neg (by omega), if_neg (by omega), if_neg (by omega)]
      · rw [if_neg fun h => hcol h.2, if_neg fun h => hcol h.2, if_neg fun h => hcol h.2]

theorem memset_eq (dst : Vector β size) (dstp : ℤ) (c : β) (n : ℕ) :
    memset dst dstp c n = memcpy dst dstp (Vector.replicate n c) ((0 : ℕ) : ℤ) n := by
  have hread : read (Vector.replicate n c) ((0 : ℕ) : ℤ) n = some (List.replicate n c) := by
    rw [read, if_pos ⟨le_rfl, by omega⟩]
    simp
  rw [memcpy, hread]
  rfl

/-- Filling is copying the same row again and again. -/
theorem fillRows_eq (dstStride : ℤ) (c : β) (n : ℕ) : ∀ (lines : ℕ) (dst : Vector β size) (dstp : ℤ)
    (count : ℕ), fillRows dstStride c n lines dst dstp count =
      copyRows dstStride ((0 : ℕ) : ℤ) (Vector.replicate n c) n lines dst dstp ((0 : ℕ) : ℤ) count
  | 0, _, _, _ => rfl
  | lines + 1, dst, dstp, count => by
    rw [fillRows, copyRows, memset_eq]
    refine congrArg _ (funext fun dst => ?_)
    exact fillRows_eq dstStride c n lines dst _ _

end Blocks
