import Mathlib

/-!
# CRC-32, bit by bit

The reflected IEEE polynomial, computed without a table. One round shifts the
remainder and folds the polynomial in when the bit that left was set; it is
written either with a mask or with a branch, and the two agree.
-/
namespace BouchaudOS

/-- Feed a byte string to the remainder, eight rounds a byte. -/
def crcFold (tour : UInt32 → UInt32) (o : List UInt8) : UInt32 :=
  ~~~(o.foldl (fun crc b => tour^[8] (crc ^^^ b.toUInt32)) 0xffffffff)

def tourMasque (crc : UInt32) : UInt32 := (crc >>> 1) ^^^ (0xedb88320 &&& (0 - (crc &&& 1)))

def tourBranche (crc : UInt32) : UInt32 :=
  if crc &&& 1 ≠ 0 then (crc >>> 1) ^^^ 0xedb88320 else crc >>> 1

theorem tourMasque_eq_tourBranche (crc : UInt32) : tourMasque crc = tourBranche crc := by
  have hbit : crc &&& 1 = 0 ∨ crc &&& 1 = 1 := by
    have hlt : (crc &&& 1).toNat < 2 := by
      exact Nat.lt_of_le_of_lt Nat.and_le_right (by decide)
    rcases Nat.lt_succ_iff_lt_or_eq.mp hlt with h | h
    · exact .inl (UInt32.toNat_inj.mp (by simpa using Nat.lt_one_iff.mp h))
    · exact .inr (UInt32.toNat_inj.mp (by simpa using h))
  unfold tourMasque tourBranche
  rcases hbit with h | h <;> rw [h]
  · simp
  · simp

theorem crcFold_masque_eq_branche (o : List UInt8) : crcFold tourMasque o = crcFold tourBranche o := by
  rw [show tourMasque = tourBranche from funext tourMasque_eq_tourBranche]

end BouchaudOS
