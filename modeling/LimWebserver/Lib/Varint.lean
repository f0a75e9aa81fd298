import Mathlib.Algebra.Ring.Parity
import Mathlib.Data.Nat.Size
import Mathlib.Data.UInt

namespace LimWebserver.Lib.Varint

/-!
# Numbers in groups of seven bits

* `groups` — a number in groups of seven bits, the lowest first; every byte but the last has the
  bit 128;
* `parse` — the number in front of other bytes; `parse_groups`, and `groups_prefix_inj`: no number
  is a prefix of another one;
* `length_groups` — how many bytes there are;
* `zigzag_cancel` — signed numbers in an order in which small ones have few bits.
-/

/-- A number in groups of seven bits. -/
def groups (n : Nat) : List UInt8 :=
  if n < 128 then [UInt8.ofNat n] else UInt8.ofNat (n % 128 + 128) :: groups (n / 128)

/-- The number in front, and what is behind it; nothing when there is no last group. -/
def parse : List UInt8 → Option (Nat × List UInt8)
  | [] => none
  | b :: bytes =>
    if b < 128 then some (b.toNat, bytes)
    else (parse bytes).map fun r => (b.toNat - 128 + 128 * r.1, r.2)

theorem groups_of_lt {n : Nat} (h : n < 128) : groups n = [UInt8.ofNat n] := by
  rw [groups, if_pos h]

theorem groups_of_le {n : Nat} (h : 128 ≤ n) :
    groups n = UInt8.ofNat (n % 128 + 128) :: groups (n / 128) := by
  rw [groups, if_neg (by omega)]

/-- A byte by its value. -/
theorem toNat_ofNat {n : Nat} (h : n < 256) : (UInt8.ofNat n).toNat = n := by
  rw [UInt8.toNat_ofNat']
  omega

theorem ofNat_lt {n : Nat} (h : n < 128) : UInt8.ofNat n < 128 := by
  rw [UInt8.lt_iff_toNat_lt, toNat_ofNat (by omega)]
  exact h

theorem not_ofNat_lt {n : Nat} (h : n < 128) : ¬ UInt8.ofNat (n + 128) < 128 := by
  rw [UInt8.lt_iff_toNat_lt, toNat_ofNat (by omega)]
  show ¬ n + 128 < 128
  omega

/-- **Reading back.** -/
theorem parse_groups (n : Nat) (rest : List UInt8) :
    parse (groups n ++ rest) = some (n, rest) := by
  induction n using Nat.strong_induction_on with
  | _ n ih =>
    rcases Nat.lt_or_ge n 128 with h | h
    · rw [groups_of_lt h, List.singleton_append, parse, if_pos (ofNat_lt h),
        toNat_ofNat (by omega)]
    · rw [groups_of_le h, List.cons_append, parse, if_neg (not_ofNat_lt (by omega)),
        ih (n / 128) (by omega), Option.map_some, toNat_ofNat (by omega)]
      have hn : n % 128 + 128 - 128 + 128 * (n / 128) = n := by omega
      rw [hn]

/-- **No number is a prefix of another one.** -/
theorem groups_prefix_inj {m n : Nat} (h : groups m <+: groups n) : m = n := by
  obtain ⟨rest, hrest⟩ := h
  have hm := parse_groups m rest
  have hn := parse_groups n []
  rw [List.append_nil, ← hrest, hm] at hn
  exact (Prod.mk.inj (Option.some.inj hn)).1

/-- At least one byte is taken. -/
theorem parse_length {bytes rest : List UInt8} {n : Nat} (h : parse bytes = some (n, rest)) :
    rest.length < bytes.length := by
  induction bytes generalizing n with
  | nil => cases h
  | cons b bytes ih =>
    rw [parse] at h
    split at h
    · obtain ⟨-, rfl⟩ := Prod.mk.inj (Option.some.inj h)
      exact Nat.lt_succ_self _
    · obtain ⟨⟨m, rest'⟩, hparse, heq⟩ := Option.map_eq_some_iff.mp h
      obtain ⟨-, rfl⟩ := Prod.mk.inj heq
      exact Nat.lt_succ_of_lt (ih hparse)

/-- What follows a number makes no difference. -/
theorem parse_append {bytes rest : List UInt8} {n : Nat} (h : parse bytes = some (n, rest))
    (more : List UInt8) : parse (bytes ++ more) = some (n, rest ++ more) := by
  induction bytes generalizing n with
  | nil => cases h
  | cons b bytes ih =>
    rw [List.cons_append, parse]
    rw [parse] at h
    split at h
    · rename_i hb
      obtain ⟨rfl, rfl⟩ := Prod.mk.inj (Option.some.inj h)
      rw [if_pos hb]
    · rename_i hb
      obtain ⟨⟨m, rest'⟩, hparse, heq⟩ := Option.map_eq_some_iff.mp h
      obtain ⟨rfl, rfl⟩ := Prod.mk.inj heq
      rw [if_neg hb, ih hparse, Option.map_some]

/-- The bytes of a number. -/
theorem parse_split {bytes rest : List UInt8} {n : Nat} (h : parse bytes = some (n, rest)) :
    ∃ front, bytes = front ++ rest ∧ parse front = some (n, []) := by
  induction bytes generalizing n with
  | nil => cases h
  | cons b bytes ih =>
    rw [parse] at h
    split at h
    · rename_i hb
      obtain ⟨rfl, rfl⟩ := Prod.mk.inj (Option.some.inj h)
      exact ⟨[b], rfl, by rw [parse, if_pos hb]⟩
    · rename_i hb
      obtain ⟨⟨m, rest'⟩, hparse, heq⟩ := Option.map_eq_some_iff.mp h
      obtain ⟨rfl, rfl⟩ := Prod.mk.inj heq
      obtain ⟨front, rfl, hfront⟩ := ih hparse
      exact ⟨b :: front, rfl, by rw [parse, if_neg hb, hfront, Option.map_some]⟩

theorem groups_ne_nil (n : Nat) : groups n ≠ [] := by
  intro h
  have hn := parse_groups n []
  simp [h, parse] at hn

/-- `k` groups are enough for the numbers of `7 * k` bits. -/
theorem length_groups_le {k n : Nat} (hk : 0 < k) :
    (groups n).length ≤ k ↔ n.size ≤ 7 * k := by
  induction k generalizing n with
  | zero => exact absurd hk (lt_irrefl 0)
  | succ k ih =>
    rw [Nat.size_le]
    rcases Nat.lt_or_ge n 128 with h | h
    · rw [groups_of_lt h, List.length_singleton]
      refine iff_of_true (by omega) (lt_of_lt_of_le h ?_)
      exact Nat.pow_le_pow_right (i := 7) (j := 7 * (k + 1)) Nat.two_pos (by omega)
    · rw [groups_of_le h, List.length_cons, Nat.succ_le_succ_iff]
      rcases Nat.eq_zero_or_pos k with rfl | hk
      · refine iff_of_false ?_ (by show ¬ n < 2 ^ 7; omega)
        rw [Nat.le_zero, List.length_eq_zero_iff]
        exact groups_ne_nil _
      · have hpow : 2 ^ (7 * (k + 1)) = 2 ^ (7 * k) * 128 := by
          rw [Nat.mul_succ, Nat.pow_add]
        rw [ih hk, Nat.size_le, hpow, Nat.div_lt_iff_lt_mul (by decide)]

/-- **The number of groups**: a seventh of the bits, rounded up, and at least one. -/
theorem length_groups (n : Nat) : (groups n).length = max 1 ((n.size + 6) / 7) := by
  have hpos : 0 < (groups n).length := List.length_pos_of_ne_nil (groups_ne_nil n)
  have hle : (groups n).length ≤ max 1 ((n.size + 6) / 7) := by
    rw [length_groups_le (by omega)]
    omega
  have hge := (length_groups_le hpos).mp le_rfl
  omega

/-! ### Zigzag -/

variable {w m : Nat} {e : BitVec w}

/-- Signed numbers, the negative ones between the others. -/
def zigzag (v : BitVec w) : BitVec w := if v.slt 0#w then -v * 2#w - 1#w else v * 2#w

/-- The way back. -/
def unzigzag (e : BitVec w) : BitVec w := (e >>> 1) ^^^ -(e &&& 1#w)

theorem ushiftRight_one (h : e.toNat / 2 = m) : e >>> 1 = BitVec.ofNat w m := by
  apply BitVec.eq_of_toNat_eq
  rw [BitVec.toNat_ushiftRight, Nat.shiftRight_eq_div_pow, pow_one, h, BitVec.toNat_ofNat,
    Nat.mod_eq_of_lt]
  have := e.isLt
  omega

theorem toNat_and_one (e : BitVec w) : (e &&& 1#w).toNat = e.toNat % 2 := by
  rw [BitVec.toNat_and, BitVec.toNat_ofNat]
  cases w with
  | zero => rw [BitVec.eq_nil e]; rfl
  | succ w =>
    have hone : 1 % 2 ^ (w + 1) = 1 := Nat.mod_eq_of_lt (Nat.one_lt_two_pow (Nat.succ_ne_zero w))
    rw [hone, Nat.and_one_is_mod]

/-- Even numbers come from those that are not negative. -/
theorem unzigzag_even (h : e.toNat = 2 * m) : unzigzag e = BitVec.ofNat w m := by
  have hand : e &&& 1#w = 0#w := by
    apply BitVec.eq_of_toNat_eq
    rw [toNat_and_one, BitVec.toNat_zero]
    omega
  rw [unzigzag, hand, BitVec.neg_zero, BitVec.xor_zero, ushiftRight_one (m := m) (by omega)]

/-- Odd numbers come from the negative ones. -/
theorem unzigzag_odd (h : e.toNat = 2 * m + 1) : unzigzag e = ~~~ BitVec.ofNat w m := by
  have hw : 1 < 2 ^ w := by
    have := e.isLt
    by_contra hle
    omega
  have hand : e &&& 1#w = 1#w := by
    apply BitVec.eq_of_toNat_eq
    rw [toNat_and_one, BitVec.toNat_ofNat, Nat.mod_eq_of_lt hw]
    omega
  rw [unzigzag, hand, BitVec.neg_one_eq_allOnes, BitVec.xor_allOnes,
    ushiftRight_one (m := m) (by omega)]

/-- Negative numbers are those from half of the range on. -/
theorem slt_zero_iff (v : BitVec w) : v.slt 0#w = true ↔ 2 ^ w ≤ 2 * v.toNat := by
  rw [BitVec.slt_zero_eq_msb, BitVec.msb_eq_true_iff_two_mul_ge]

theorem toNat_zigzag_neg {v : BitVec w} (h : 2 ^ w ≤ 2 * v.toNat) :
    (zigzag v).toNat = 2 * (2 ^ w - v.toNat - 1) + 1 := by
  have hv := v.isLt
  have hneg : (-v).toNat = 2 ^ w - v.toNat := by
    rw [BitVec.toNat_neg, Nat.mod_eq_of_lt (by omega)]
  rw [zigzag, if_pos ((slt_zero_iff v).mpr h), BitVec.mul_two, BitVec.toNat_sub, BitVec.toNat_add,
    hneg, BitVec.toNat_ofNat, Nat.mod_eq_of_lt (show 1 < 2 ^ w by omega)]
  rcases eq_or_lt_of_le h with hmin | hlt
  · -- the least number is its own opposite
    have hsum : 2 ^ w - v.toNat + (2 ^ w - v.toNat) = 2 ^ w := by omega
    rw [hsum, Nat.mod_self, Nat.add_zero, Nat.mod_eq_of_lt (by omega)]
    omega
  · rw [Nat.mod_eq_of_lt (show 2 ^ w - v.toNat + (2 ^ w - v.toNat) < 2 ^ w by omega)]
    have hsum : 2 ^ w - 1 + (2 ^ w - v.toNat + (2 ^ w - v.toNat)) =
        2 * (2 ^ w - v.toNat - 1) + 1 + 2 ^ w := by omega
    rw [hsum, Nat.add_mod_right, Nat.mod_eq_of_lt (by omega)]

theorem toNat_zigzag_pos {v : BitVec w} (h : 2 * v.toNat < 2 ^ w) :
    (zigzag v).toNat = 2 * v.toNat := by
  rw [zigzag, if_neg (mt (slt_zero_iff v).mp (by omega)), BitVec.mul_two, BitVec.toNat_add,
    Nat.mod_eq_of_lt (by omega)]
  omega

/-- **Zigzag is undone.** -/
theorem unzigzag_zigzag (v : BitVec w) : unzigzag (zigzag v) = v := by
  have hv := v.isLt
  rcases Nat.lt_or_ge (2 * v.toNat) (2 ^ w) with h | h
  · rw [unzigzag_even (toNat_zigzag_pos h), BitVec.ofNat_toNat, BitVec.setWidth_eq]
  · rw [unzigzag_odd (toNat_zigzag_neg h)]
    apply BitVec.eq_of_toNat_eq
    rw [BitVec.toNat_not, BitVec.toNat_ofNat, Nat.mod_eq_of_lt (by omega)]
    omega

/-- Every code is one of a number. -/
theorem zigzag_unzigzag (e : BitVec w) : zigzag (unzigzag e) = e := by
  have he := e.isLt
  apply BitVec.eq_of_toNat_eq
  rcases Nat.even_or_odd' e.toNat with ⟨m, h | h⟩
  · have hm : (unzigzag e).toNat = m := by
      rw [unzigzag_even h, BitVec.toNat_ofNat, Nat.mod_eq_of_lt (by omega)]
    rw [toNat_zigzag_pos (by omega), hm, h]
  · have hm : (unzigzag e).toNat = 2 ^ w - 1 - m := by
      rw [unzigzag_odd h, BitVec.toNat_not, BitVec.toNat_ofNat, Nat.mod_eq_of_lt (by omega)]
    have heven : 2 ^ w % 2 = 0 := by
      cases w with
      | zero => omega
      | succ w => rw [pow_succ, Nat.mul_mod_left]
    rw [toNat_zigzag_neg (by omega), hm]
    omega

end LimWebserver.Lib.Varint
