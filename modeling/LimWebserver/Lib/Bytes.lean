import Mathlib.Algebra.GroupWithZero.Nat
import Mathlib.Algebra.Order.Group.Nat
import Mathlib.Data.UInt

namespace LimWebserver.Lib.Bytes

/-!
# Numbers in memory

* `toLE`, `ofLE` — a number of `k` bytes, the lowest byte first, and back;
* `toBE`, `ofBE` — the same with the highest byte first;
* `swap` — the number whose bytes are in the other order; `toLE_swap`, `swap_swap`.
-/

/-- The `k` lowest bytes of `n`, the lowest one first. -/
def toLE : Nat → Nat → List UInt8
  | 0, _ => []
  | k + 1, n => UInt8.ofNat n :: toLE k (n / 256)

/-- The number with these bytes, the lowest one first. -/
def ofLE : List UInt8 → Nat
  | [] => 0
  | b :: bs => b.toNat + 256 * ofLE bs

/-- The `k` lowest bytes of `n`, the highest one first. -/
def toBE : Nat → Nat → List UInt8
  | 0, _ => []
  | k + 1, n => toBE k (n / 256) ++ [UInt8.ofNat n]

/-- The number with these bytes, the highest one first. -/
def ofBE (bs : List UInt8) : Nat := ofLE bs.reverse

/-- The number of `k` bytes with the bytes of `n` in the other order. -/
def swap (k n : Nat) : Nat := ofLE (toLE k n).reverse

variable {k n : Nat} {bs : List UInt8}

@[simp] theorem length_toLE (k n : Nat) : (toLE k n).length = k := by
  induction k generalizing n with
  | zero => rfl
  | succ k ih => rw [toLE, List.length_cons, ih]

theorem reverse_toLE (k n : Nat) : (toLE k n).reverse = toBE k n := by
  induction k generalizing n with
  | zero => rfl
  | succ k ih => rw [toLE, List.reverse_cons, ih, toBE]

@[simp] theorem length_toBE (k n : Nat) : (toBE k n).length = k := by
  rw [← reverse_toLE, List.length_reverse, length_toLE]

/-- What does not fit into `k` bytes is lost. -/
theorem ofLE_toLE (k n : Nat) : ofLE (toLE k n) = n % 256 ^ k := by
  induction k generalizing n with
  | zero => rw [toLE, ofLE, pow_zero, Nat.mod_one]
  | succ k ih =>
    have hmod : n % 256 ^ (k + 1) = n % 256 + 256 * (n / 256 % 256 ^ k) := by
      rw [pow_succ', Nat.mod_mul]
    rw [toLE, ofLE, ih, hmod, UInt8.toNat_ofNat']

theorem ofLE_toLE_of_lt (h : n < 256 ^ k) : ofLE (toLE k n) = n := by
  rw [ofLE_toLE, Nat.mod_eq_of_lt h]

theorem toLE_ofLE (bs : List UInt8) : toLE bs.length (ofLE bs) = bs := by
  induction bs with
  | nil => rfl
  | cons b bs ih =>
    have hb := b.toNat_lt
    have hdiv : (b.toNat + 256 * ofLE bs) / 256 = ofLE bs := by omega
    have hmod : UInt8.ofNat (b.toNat + 256 * ofLE bs) = b := by
      apply UInt8.toNat_inj.mp
      rw [UInt8.toNat_ofNat']
      omega
    rw [List.length_cons, toLE, ofLE, hdiv, hmod, ih]

theorem ofLE_lt (bs : List UInt8) : ofLE bs < 256 ^ bs.length := by
  induction bs with
  | nil => exact Nat.one_pos
  | cons b bs ih =>
    have hb := b.toNat_lt
    rw [ofLE, List.length_cons, pow_succ]
    omega

/-- What does not fit into `k` bytes makes no difference. -/
theorem toBE_mod (k n : Nat) : toBE k (n % 256 ^ k) = toBE k n := by
  have h := toLE_ofLE (toLE k n)
  rw [length_toLE, ofLE_toLE] at h
  rw [← reverse_toLE, h, reverse_toLE]

/-- The bytes of `swap k n` are those of `n` in the other order. -/
theorem toLE_swap (k n : Nat) : toLE k (swap k n) = toBE k n := by
  have h := toLE_ofLE (toLE k n).reverse
  rwa [List.length_reverse, length_toLE, reverse_toLE, ← reverse_toLE, ← swap, reverse_toLE] at h

theorem swap_swap (h : n < 256 ^ k) : swap k (swap k n) = n := by
  rw [swap, toLE_swap, ← reverse_toLE, List.reverse_reverse, ofLE_toLE_of_lt h]

theorem swap_ofLE (bs : List UInt8) : swap bs.length (ofLE bs) = ofBE bs := by
  rw [swap, toLE_ofLE, ofBE]

theorem ofBE_lt (bs : List UInt8) : ofBE bs < 256 ^ bs.length := by
  have h := ofLE_lt bs.reverse
  rwa [List.length_reverse] at h

theorem ofBE_toBE (h : n < 256 ^ k) : ofBE (toBE k n) = n := by
  rw [ofBE, ← reverse_toLE, List.reverse_reverse, ofLE_toLE_of_lt h]

theorem toBE_ofBE (bs : List UInt8) : toBE bs.length (ofBE bs) = bs := by
  have h := toLE_ofLE bs.reverse
  rw [List.length_reverse] at h
  rw [← reverse_toLE, ofBE, h, List.reverse_reverse]

/-- Both orders of the bytes agree when the number is the one with the bytes swapped. -/
theorem toLE_eq_toBE_iff (h : n < 256 ^ k) : toLE k n = toBE k n ↔ swap k n = n := by
  constructor
  · intro heq
    rw [swap, reverse_toLE, ← heq, ofLE_toLE_of_lt h]
  · intro heq
    rw [← toLE_swap, heq]

end LimWebserver.Lib.Bytes
