/-
# Units and characters

The value objects of `include/launchpad/core/units.hpp` and the two character
functions of the C library the C++ code calls, in the "C" locale the daemon
runs in. A `std::string` is the list of its characters, a `char` the character
of its byte.
-/
import Mathlib.Data.List.Basic

namespace Launchpad

/-- A `std::string`. -/
abbrev Str := List Char

/-- A raw evdev key code, `int16_t`. -/
abbrev RawKeyCode := Int16

/-- The key codes of a hotkey, in the order typed. -/
abbrev KeySequence := List RawKeyCode

/-- How a key is sent; the legacy code numbers the modes `SENDMODE_NORMAL`,
`SENDMODE_SHIFT` and `SENDMODE_ALT`. -/
inductive SendMode
  | normal
  | shift
  | alt
  deriving DecidableEq

/-- A reading of `steady_clock::now()`, in nanoseconds. -/
abbrev TimePoint := Int

/-- `duration_cast<milliseconds>(d).count()` cast to `uint32_t`: nanoseconds to
milliseconds towards zero, then modulo 2³². -/
def millisecondsOf (d : Int) : UInt32 := UInt32.ofNat ((d.tdiv 1000000) % 4294967296).toNat

/-- Multiplication of `uint32_t`. -/
def mul32 (a b : ℕ) : ℕ := a * b % 4294967296

/-- The cast of a `uint32_t` to `int32_t`. -/
def int32 (n : ℕ) : Int := if n < 2147483648 then n else (n : Int) - 4294967296

/-- `std::tolower`. -/
def tolower (c : Char) : Char := c.toLower

/-- `std::isspace`: blank, tab, newline, vertical tab, form feed, carriage return. -/
def isspace (c : Char) : Bool := c == ' ' || ('\t'.toNat ≤ c.toNat && c.toNat ≤ '\r'.toNat)

/-- Lower case is only made of lower case letters. -/
theorem eq_of_tolower_eq {c d : Char} (hd : d.isLower = false) (h : tolower c = d) : c = d := by
  unfold tolower Char.toLower at h
  split at h
  · rename_i hupper
    have hval : c.val + ('a'.val - 'A'.val) = d.val := congrArg Char.val h
    have hge : 65 ≤ c.val.toNat := UInt32.le_iff_toNat_le.mp hupper.1
    have hle : c.val.toNat ≤ 90 := UInt32.le_iff_toNat_le.mp hupper.2
    have hshift : ('a'.val - 'A'.val).toNat = 32 := rfl
    have hcode : d.val.toNat = c.val.toNat + 32 := by
      rw [← hval, UInt32.toNat_add, hshift]
      omega
    have hlow : d.isLower = true := by
      show (decide ('a'.val ≤ d.val) && decide (d.val ≤ 'z'.val)) = true
      rw [Bool.and_eq_true, decide_eq_true_iff, decide_eq_true_iff, UInt32.le_iff_toNat_le,
        UInt32.le_iff_toNat_le, hcode]
      exact ⟨by show 97 ≤ _; omega, by show _ ≤ 122; omega⟩
    rw [hd] at hlow
    exact Bool.noConfusion hlow
  · exact h

theorem millisecondsOf_toNat {d : Int} (h0 : 0 ≤ d) (h : d < 4294967296 * 1000000) :
    (millisecondsOf d).toNat = (d / 1000000).toNat := by
  have hdiv : d.tdiv 1000000 = d / 1000000 := Int.tdiv_eq_ediv_of_nonneg h0
  have hnonneg : 0 ≤ d / 1000000 := Int.ediv_nonneg h0 (by decide)
  have hlt : d / 1000000 < 4294967296 := Int.ediv_lt_of_lt_mul (by decide) h
  rw [millisecondsOf, hdiv, Int.emod_eq_of_lt hnonneg hlt, UInt32.toNat_ofNat_of_lt']
  simp only [UInt32.size]
  omega

end Launchpad
