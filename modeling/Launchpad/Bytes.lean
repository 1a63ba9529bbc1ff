/-
# Records of bytes

Numbers written with the least significant byte first, records of such numbers
one after the other, and parts of one length one after the other. A field of a
record is read back (`field_record`), and so is a byte of a part
(`getElem?_flatMap`).
-/
import Mathlib.Algebra.Order.BigOperators.Group.List
import Mathlib.Tactic.Ring

namespace Bytes

/-- The `n` low bytes of a number, the least significant first. -/
def littleEndian : ℕ → ℕ → List UInt8
  | 0, _ => []
  | n + 1, v => UInt8.ofNat v :: littleEndian n (v / 256)

/-- The number of such bytes. -/
def value (bs : List UInt8) : ℕ := bs.foldr (fun b v => b.toNat + 256 * v) 0

@[simp] theorem length_littleEndian : ∀ n v : ℕ, (littleEndian n v).length = n
  | 0, _ => rfl
  | n + 1, v => congrArg (· + 1) (length_littleEndian n (v / 256))

theorem value_littleEndian : ∀ {n v : ℕ}, v < 256 ^ n → value (littleEndian n v) = v
  | 0, v, h => by
    rw [pow_zero, Nat.lt_one_iff] at h
    rw [h]
    rfl
  | n + 1, v, h => by
    have hdiv : v / 256 < 256 ^ n := by
      rw [pow_succ, Nat.mul_comm] at h
      exact Nat.div_lt_of_lt_mul h
    have ih := value_littleEndian hdiv
    show (UInt8.ofNat v).toNat + 256 * value (littleEndian n (v / 256)) = v
    rw [ih, UInt8.toNat_ofNat']
    omega

/-- The number in `n` bytes of a file from offset `i` on. -/
def field (file : List UInt8) (i n : ℕ) : Option ℕ :=
  if i + n ≤ file.length then some (value ((file.drop i).take n)) else none

theorem field_append (a b : List UInt8) {n v : ℕ} (hv : v < 256 ^ n) :
    field (a ++ (littleEndian n v ++ b)) a.length n = some v := by
  have hlen : a.length + n ≤ (a ++ (littleEndian n v ++ b)).length := by simp
  have htake : (littleEndian n v ++ b).take n = littleEndian n v :=
    List.take_left' (length_littleEndian n v)
  rw [field, if_pos hlen, List.drop_left, htake, value_littleEndian hv]

/-- A record: fields of so many bytes with such values. -/
def record (fs : List (ℕ × ℕ)) : List UInt8 := fs.flatMap fun f => littleEndian f.1 f.2

theorem length_record (fs : List (ℕ × ℕ)) : (record fs).length = (fs.map Prod.fst).sum := by
  simp [record, List.length_flatMap]

/-- A field of a record is read back behind the fields before it. -/
theorem field_record (pre rest : List UInt8) {fs : List (ℕ × ℕ)} {k n v : ℕ}
    (h : fs[k]? = some (n, v)) (hv : v < 256 ^ n) :
    field (pre ++ (record fs ++ rest)) (pre.length + ((fs.take k).map Prod.fst).sum) n = some v := by
  obtain ⟨hk, hget⟩ := List.getElem?_eq_some_iff.mp h
  have hsplit : record fs =
      record (fs.take k) ++ (littleEndian n v ++ record (fs.drop (k + 1))) := by
    conv_lhs => rw [← List.take_append_drop k fs, List.drop_eq_getElem_cons hk, hget]
    simp [record]
  have hfile : pre ++ (record fs ++ rest) =
      (pre ++ record (fs.take k)) ++ (littleEndian n v ++ (record (fs.drop (k + 1)) ++ rest)) := by
    rw [hsplit]
    simp only [List.append_assoc]
  have hlen : pre.length + ((fs.take k).map Prod.fst).sum = (pre ++ record (fs.take k)).length := by
    rw [List.length_append, length_record]
  rw [hfile, hlen]
  exact field_append _ _ hv

/-- The same, with the offset as a number. -/
theorem field_record_at {pre rest : List UInt8} {fs : List (ℕ × ℕ)} {widths : List ℕ} {i k n v : ℕ}
    (hwidths : fs.map Prod.fst = widths) (h : fs[k]? = some (n, v)) (hv : v < 256 ^ n)
    (hi : pre.length + (widths.take k).sum = i) : field (pre ++ (record fs ++ rest)) i n = some v := by
  have hfield := field_record pre rest h hv
  rwa [List.map_take, hwidths, hi] at hfield

/-- Parts of one length one after the other. -/
theorem getElem?_flatMap {α β : Type*} {n : ℕ} (f : α → List β) (l : List α)
    (hf : ∀ a ∈ l, (f a).length = n) (i : ℕ) {j : ℕ} (hj : j < n) :
    (l.flatMap f)[i * n + j]? = (l[i]?).bind fun a => (f a)[j]? := by
  induction l generalizing i with
  | nil => rfl
  | cons a l ih =>
    have ha : (f a).length = n := hf a List.mem_cons_self
    rw [List.flatMap_cons]
    cases i with
    | zero =>
      rw [Nat.zero_mul, Nat.zero_add, List.getElem?_append_left (by omega)]
      rfl
    | succ i =>
      have hle : (f a).length ≤ (i + 1) * n + j := by
        rw [Nat.succ_mul, ha]
        omega
      rw [List.getElem?_append_right hle, ha, Nat.succ_mul, Nat.add_right_comm, Nat.add_sub_cancel]
      exact ih (fun b hb => hf b (List.mem_cons_of_mem a hb)) i

theorem length_flatMap {α β : Type*} {n : ℕ} (f : α → List β) (l : List α)
    (hf : ∀ a ∈ l, (f a).length = n) : (l.flatMap f).length = l.length * n := by
  rw [List.length_flatMap, List.map_congr_left hf]
  simp

end Bytes
