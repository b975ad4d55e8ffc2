import Mathlib.Data.BitVec
import Mathlib.Logic.Function.Iterate

/-!
The finalizer of SplitMix: an odd constant is added, and the word is folded onto itself and
multiplied by odd constants.  Each step can be undone, so every word is the image of one.
-/

namespace Harc.SplitMix

/-! ### Steps that can be undone -/

theorem xor_shift_unshift (x : BitVec 64) {n : Nat} (hn : 64 ≤ 3 * n) :
    (x ^^^ x >>> n ^^^ x >>> (2 * n)) ^^^ (x ^^^ x >>> n ^^^ x >>> (2 * n)) >>> n = x := by
  ext i hi
  simp only [BitVec.getElem_xor, BitVec.getElem_ushiftRight, BitVec.getLsbD_xor,
    BitVec.getLsbD_ushiftRight]
  have hout : x.getLsbD (2 * n + (n + i)) = false := BitVec.getLsbD_of_ge _ _ (by omega)
  have hsame : 2 * n + i = n + (n + i) := by omega
  rw [hout, hsame]
  simp

theorem mul_unmul (x : BitVec 64) {a b : BitVec 64} (h : b * a = 1#64) : x * b * a = x := by
  rw [BitVec.mul_assoc, h, BitVec.mul_one]

/-! ### The finalizer -/

def splitmix64 (value : BitVec 64) : BitVec 64 :=
  let value := value + 0x9E3779B97F4A7C15#64
  let value := (value ^^^ value >>> 30) * 0xBF58476D1CE4E5B9#64
  let value := (value ^^^ value >>> 27) * 0x94D049BB133111EB#64
  value ^^^ value >>> 31

/-- The steps backwards. -/
def unsplitmix64 (value : BitVec 64) : BitVec 64 :=
  let value := value ^^^ value >>> 31 ^^^ value >>> 62
  let value := value * 0x319642B2D24D8EC3#64
  let value := value ^^^ value >>> 27 ^^^ value >>> 54
  let value := value * 0x96DE1B173F119089#64
  let value := value ^^^ value >>> 30 ^^^ value >>> 60
  value - 0x9E3779B97F4A7C15#64

theorem splitmix64_unsplitmix64 (value : BitVec 64) : splitmix64 (unsplitmix64 value) = value := by
  simp only [splitmix64, unsplitmix64, BitVec.sub_add_cancel]
  rw [xor_shift_unshift _ (by omega : 64 ≤ 3 * 30), mul_unmul _ (by decide),
    xor_shift_unshift _ (by omega : 64 ≤ 3 * 27), mul_unmul _ (by decide),
    xor_shift_unshift _ (by omega : 64 ≤ 3 * 31)]

theorem splitmix64_surjective : Function.Surjective splitmix64 :=
  fun value => ⟨unsplitmix64 value, splitmix64_unsplitmix64 value⟩

end Harc.SplitMix
