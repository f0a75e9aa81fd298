import Mathlib.Data.UInt

namespace LimWebserver.Lib

/-!
# Machine integers of another width

* `bmod_of_low`, `bmod_of_high` — a natural number that is stored in a signed integer of `w + 1`
  bits: the number that its low bits make, or that number less `2 ^ (w + 1)`;
* `toInt_narrow` — an unsigned number of 64 bits that is stored in a signed one of 32;
* `toNat_toUInt64_of_nonneg`, `toNat_toUInt64_of_neg` — a signed number that is passed as an
  unsigned one.
-/

variable {w m : Nat}

/-- The low bits are a number that fits. -/
theorem bmod_of_low (h : m % 2 ^ (w + 1) < 2 ^ w) :
    (m : Int).bmod (2 ^ (w + 1)) = (m % 2 ^ (w + 1) : Nat) := by
  have hhalf : (2 ^ (w + 1) + 1) / 2 = 2 ^ w := by omega
  rw [Int.bmod_def, if_pos, Int.natCast_mod]
  rw [← Int.natCast_mod]
  omega

/-- The low bits have the sign bit among them. -/
theorem bmod_of_high (h : 2 ^ w ≤ m % 2 ^ (w + 1)) :
    (m : Int).bmod (2 ^ (w + 1)) = (m % 2 ^ (w + 1) : Nat) - 2 ^ (w + 1) := by
  have hhalf : (2 ^ (w + 1) + 1) / 2 = 2 ^ w := by omega
  rw [Int.bmod_def, if_neg]
  · push_cast; rfl
  · rw [← Int.natCast_mod]
    omega

/-- The low 32 bits of an unsigned number, as a signed one. -/
theorem toInt_narrow (x : UInt64) : x.toUInt32.toInt32.toInt = (x.toNat : Int).bmod (2 ^ 32) := by
  show x.toUInt32.toBitVec.toInt = _
  rw [BitVec.toInt_eq_toNat_bmod]
  show ((x.toUInt32.toNat : Int)).bmod _ = _
  rw [UInt64.toNat_toUInt32, Int.natCast_mod, Int.emod_bmod]

theorem toNat_toUInt64_of_nonneg {x : Int64} (h : 0 ≤ x.toInt) :
    x.toUInt64.toNat = x.toInt.toNat := by
  have hx : 0 ≤ x := Int64.le_iff_toInt_le.mpr (by simpa using h)
  rw [Int64.toNat_toUInt64_of_le hx, Int64.toNat_toInt]

/-- A negative number is passed as a very large one. -/
theorem toNat_toUInt64_of_neg {x : Int64} (h : x.toInt < 0) :
    (x.toUInt64.toNat : Int) = x.toInt + 2 ^ 64 := by
  rw [← Int64.toInt_toBitVec] at h
  rw [← Int64.toNat_toBitVec, ← Int64.toInt_toBitVec]
  rw [BitVec.toInt_eq_toNat_cond] at h ⊢
  split at h
  · omega
  · rename_i hlarge
    rw [if_neg hlarge]
    omega

end LimWebserver.Lib
