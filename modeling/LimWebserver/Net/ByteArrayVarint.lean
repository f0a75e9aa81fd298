import LimWebserver.Lib.Varint
import LimWebserver.Net.ByteArrayCodec

namespace LimWebserver.ByteArray

open LimWebserver.Lib.Bytes LimWebserver.Lib.Varint

/-!
# Net — variable-width integers of `ByteArray`

* `encodeZigzag32` .. `decodeZigzag64`, `writeInt32` .. `writeUint64`, `readInt32` .. `readUint64`;
* `pack_eq` — the loop of the writers yields the groups of the number;
* `Stream.unpack` — the loop of the readers takes the groups of a number, whatever follows them;
* `RoundTrip`, `varint_roundTrip` — what is written is read.
-/

/-! ### The writers and readers -/

def encodeZigzag32 (v : Int32) : UInt32 :=
  if v < 0 then (-v).toUInt32 * 2 - 1 else (v * 2).toUInt32

def encodeZigzag64 (v : Int64) : UInt64 :=
  if v < 0 then (-v).toUInt64 * 2 - 1 else (v * 2).toUInt64

def decodeZigzag32 (v : UInt32) : Int32 := ((v >>> 1) ^^^ -(v &&& 1)).toInt32

def decodeZigzag64 (v : UInt64) : Int64 := ((v >>> 1) ^^^ -(v &&& 1)).toInt64

section
variable {w : Nat}

/-- The loop of `writeUint32` and `writeUint64`, which are of width `w`: what it puts into `tmp`. -/
def pack : Nat → BitVec w → Except Fault (List UInt8)
  | fuel, value =>
    if 0x80#w ≤ value then
      match fuel with
      | 0 => .error .stuck
      | fuel + 1 => do
        let tmp ← pack fuel (value >>> 7)
        .ok (UInt8.ofNat ((value &&& 0x7F#w) ||| 0x80#w).toNat :: tmp)
    else .ok [UInt8.ofNat value.toNat]

/-- The loop of `readUint32` and `readUint64`; nothing when `readFuint8` throws. -/
def unpack : Nat → Nat → BitVec w → ByteArray → Except Fault (Option (BitVec w) × ByteArray)
  | fuel, i, result, s =>
    if w ≤ i then .ok (some result, s)
    else match fuel with
    | 0 => .error .stuck
    | fuel + 1 => do
      let (b, s) ← s.readFuint8
      match b with
      | none => .ok (none, s)
      | some b =>
        if b < 0x80 then .ok (some (result ||| (BitVec.ofNat w b.toNat <<< i)), s)
        else unpack fuel (i + 7) (result ||| (BitVec.ofNat w (b &&& 0x7f).toNat <<< i)) s

end

variable (s : ByteArray)

def writeUint32 (value : UInt32) : Except Fault ByteArray := do
  let tmp ← pack 32 value.toBitVec
  s.write tmp

def writeUint64 (value : UInt64) : Except Fault ByteArray := do
  let tmp ← pack 64 value.toBitVec
  s.write tmp

def writeInt32 (value : Int32) : Except Fault ByteArray := s.writeUint32 (encodeZigzag32 value)

def writeInt64 (value : Int64) : Except Fault ByteArray := s.writeUint64 (encodeZigzag64 value)

def readUint32 : Except Fault (Option UInt32 × ByteArray) := do
  let (result, s) ← unpack 32 0 0#32 s
  .ok (result.map UInt32.ofBitVec, s)

def readUint64 : Except Fault (Option UInt64 × ByteArray) := do
  let (result, s) ← unpack 64 0 0#64 s
  .ok (result.map UInt64.ofBitVec, s)

def readInt32 : Except Fault (Option Int32 × ByteArray) := do
  let (v, s) ← s.readUint32
  .ok (v.map decodeZigzag32, s)

def readInt64 : Except Fault (Option Int64 × ByteArray) := do
  let (v, s) ← s.readUint64
  .ok (v.map decodeZigzag64, s)

/-! ### Zigzag -/

theorem encodeZigzag32_toBitVec (v : Int32) : (encodeZigzag32 v).toBitVec = zigzag v.toBitVec := by
  have hneg : v < 0 ↔ v.toBitVec.slt 0#32 = true := Int32.lt_iff_toBitVec_slt
  rw [encodeZigzag32, zigzag]
  by_cases h : v < 0
  · rw [if_pos h, if_pos (hneg.mp h)]
    rfl
  · rw [if_neg h, if_neg (mt hneg.mpr h)]
    rfl

theorem encodeZigzag64_toBitVec (v : Int64) : (encodeZigzag64 v).toBitVec = zigzag v.toBitVec := by
  have hneg : v < 0 ↔ v.toBitVec.slt 0#64 = true := Int64.lt_iff_toBitVec_slt
  rw [encodeZigzag64, zigzag]
  by_cases h : v < 0
  · rw [if_pos h, if_pos (hneg.mp h)]
    rfl
  · rw [if_neg h, if_neg (mt hneg.mpr h)]
    rfl

theorem decodeZigzag32_encodeZigzag32 (v : Int32) : decodeZigzag32 (encodeZigzag32 v) = v := by
  apply Int32.toBitVec_inj.mp
  have h := unzigzag_zigzag v.toBitVec
  rw [← encodeZigzag32_toBitVec] at h
  exact h

theorem decodeZigzag64_encodeZigzag64 (v : Int64) : decodeZigzag64 (encodeZigzag64 v) = v := by
  apply Int64.toBitVec_inj.mp
  have h := unzigzag_zigzag v.toBitVec
  rw [← encodeZigzag64_toBitVec] at h
  exact h

theorem encodeZigzag32_decodeZigzag32 (v : UInt32) : encodeZigzag32 (decodeZigzag32 v) = v := by
  apply UInt32.toBitVec_inj.mp
  rw [encodeZigzag32_toBitVec]
  exact zigzag_unzigzag v.toBitVec

theorem encodeZigzag64_decodeZigzag64 (v : UInt64) : encodeZigzag64 (decodeZigzag64 v) = v := by
  apply UInt64.toBitVec_inj.mp
  rw [encodeZigzag64_toBitVec]
  exact zigzag_unzigzag v.toBitVec

/-! ### The loop of the writers -/

section
variable {w : Nat}

/-- **The bytes of a number.** -/
theorem pack_eq (hw : 8 ≤ w) {fuel : Nat} {v : BitVec w} (h : v.toNat < 128 ^ (fuel + 1)) :
    pack fuel v = .ok (groups v.toNat) := by
  have hwidth : 2 ^ 8 ≤ 2 ^ w := Nat.pow_le_pow_right Nat.two_pos hw
  have h128 : (0x80#w).toNat = 128 := by
    rw [BitVec.toNat_ofNat, Nat.mod_eq_of_lt (by omega)]
  have h127 : (0x7F#w).toNat = 2 ^ 7 - 1 := by
    rw [BitVec.toNat_ofNat, Nat.mod_eq_of_lt (by omega)]
    rfl
  induction fuel generalizing v with
  | zero =>
    rw [pack, if_neg (by rw [BitVec.le_def, h128]; omega), groups_of_lt (by omega)]
  | succ fuel ih =>
    by_cases hv : 128 ≤ v.toNat
    · have hshift : (v >>> 7).toNat = v.toNat / 128 := by
        rw [BitVec.toNat_ushiftRight, Nat.shiftRight_eq_div_pow]
      have hlow : v.toNat % 2 ^ 7 < 2 ^ 7 := Nat.mod_lt _ (by decide)
      have hbyte : ((v &&& 0x7F#w) ||| 0x80#w).toNat = v.toNat % 128 + 128 := by
        rw [BitVec.toNat_or, BitVec.toNat_and, h127, h128, Nat.and_two_pow_sub_one_eq_mod,
          Nat.or_comm, ← Nat.two_pow_add_eq_or_of_lt hlow 1]
        omega
      rw [pack, if_pos (by rw [BitVec.le_def, h128]; exact hv)]
      simp only [ih (v := v >>> 7) (by rw [hshift, pow_succ] at *; omega), bind, Except.bind, hbyte]
      rw [hshift, ← groups_of_le hv]
    · rw [pack, if_neg (by rw [BitVec.le_def, h128]; exact hv), groups_of_lt (by omega)]

end

/-! ### The loop of the readers -/

section
variable {s : ByteArray} {L : List Nat} {q rest : List UInt8}

/-- Only the read cursor has moved. -/
def Reads (s s' : ByteArray) : Prop :=
  s'.m_writePos = s.m_writePos ∧ s'.m_capacity = s.m_capacity

theorem Reads.trans {s₁ s₂ : ByteArray} (h : Reads s s₁) (h' : Reads s₁ s₂) : Reads s s₂ :=
  ⟨h'.1.trans h.1, h'.2.trans h.2⟩

/-- One byte. -/
theorem Stream.readFuint8 {b : UInt8} (hs : Stream s L (b :: q)) :
    ∃ s', s.readFuint8 = .ok (some b, s') ∧ Stream s' L q ∧ Reads s s' := by
  obtain ⟨s', hrun, hs', -, hw, -, hcap⟩ := hs.read (n := 1) (by simp) (.inl Nat.one_ne_zero)
  refine ⟨s', ?_, hs', hw, hcap⟩
  simp [ByteArray.readFuint8, readMemory, hrun, bind, Except.bind, ofLE]

/-- No byte. -/
theorem Stream.readFuint8_nil (hs : Stream s L []) : s.readFuint8 = .ok (none, s) := by
  simp [ByteArray.readFuint8, readMemory, hs.read_outOfRange (n := 1) (by simp), bind, Except.bind]

variable {w i : Nat} {result : BitVec w}

/-- One more group. -/
theorem toNat_or_shift {n : Nat} (hres : result.toNat < 2 ^ i)
    (hn : result.toNat + n * 2 ^ i < 2 ^ w) :
    (result ||| (BitVec.ofNat w n <<< i)).toNat = result.toNat + n * 2 ^ i := by
  have hle : n ≤ n * 2 ^ i := Nat.le_mul_of_pos_right n (Nat.two_pow_pos i)
  rw [BitVec.toNat_or, BitVec.toNat_shiftLeft, BitVec.toNat_ofNat,
    Nat.mod_eq_of_lt (show n < 2 ^ w by omega), Nat.shiftLeft_eq,
    Nat.mod_eq_of_lt (show n * 2 ^ i < 2 ^ w by omega), Nat.or_comm, Nat.mul_comm n,
    ← Nat.two_pow_add_eq_or_of_lt hres n]
  omega

theorem unpack_done {fuel : Nat} (hi : w ≤ i) :
    ByteArray.unpack fuel i result s = .ok (some result, s) := by
  unfold ByteArray.unpack
  exact if_pos hi

/-- One round of the loop. -/
theorem unpack_round {b : UInt8} {s₁ : ByteArray} (fuel : Nat) (hi : i < w)
    (hrun : s.readFuint8 = .ok (some b, s₁)) : ByteArray.unpack (fuel + 1) i result s =
      if b < 0x80 then .ok (some (result ||| (BitVec.ofNat w b.toNat <<< i)), s₁)
      else
        ByteArray.unpack fuel (i + 7)
          (result ||| (BitVec.ofNat w (b &&& 0x7f).toNat <<< i)) s₁ := by
  rw [ByteArray.unpack, if_neg (by omega)]
  simp only [hrun, bind, Except.bind]

/-- A round without a byte. -/
theorem unpack_end {s₁ : ByteArray} (fuel : Nat) (hi : i < w)
    (hrun : s.readFuint8 = .ok (none, s₁)) :
    ByteArray.unpack (fuel + 1) i result s = .ok (none, s₁) := by
  rw [ByteArray.unpack, if_neg (by omega)]
  simp only [hrun, bind, Except.bind]

/-- **Reading a number.** Its groups are taken, as long as there are no more than rounds, and
    nothing behind them. -/
theorem Stream.unpack {n : Nat} (fuel i : Nat) (result : BitVec w) (hs : Stream s L q)
    (hparse : parse q = some (n, rest)) (hlen : i + 7 * (q.length - rest.length) < w + 7)
    (hres : result.toNat < 2 ^ i) (hn : result.toNat + n * 2 ^ i < 2 ^ w)
    (hfuel : q.length - rest.length ≤ fuel) :
    ∃ r s', unpack fuel i result s = .ok (some r, s') ∧ r.toNat = result.toNat + n * 2 ^ i ∧
      Stream s' L rest ∧ Reads s s' := by
  induction q generalizing n i result s fuel with
  | nil => cases hparse
  | cons b bytes ih =>
    have hshort := parse_length hparse
    rw [List.length_cons] at hshort hlen hfuel
    obtain ⟨fuel, rfl⟩ := Nat.exists_eq_succ_of_ne_zero (show fuel ≠ 0 by omega)
    obtain ⟨s₁, hrun, hs₁, hreads⟩ := hs.readFuint8
    rw [parse] at hparse
    split at hparse
    · -- the last group
      rename_i hb
      obtain ⟨rfl, rfl⟩ := Prod.mk.inj (Option.some.inj hparse)
      refine ⟨_, s₁, ?_, toNat_or_shift hres hn, hs₁, hreads⟩
      rw [unpack_round fuel (by omega) hrun]
      exact if_pos hb
    · rename_i hb
      obtain ⟨⟨m, rest'⟩, hparse', heq⟩ := Option.map_eq_some_iff.mp hparse
      replace heq : (b.toNat - 128 + 128 * m, rest') = (n, rest) := heq
      obtain ⟨rfl, rfl⟩ := Prod.mk.inj heq
      have hshort' := parse_length hparse'
      have hlow : (b &&& 0x7f).toNat = b.toNat - 128 := by
        have hmod : (b &&& 0x7f).toNat = b.toNat % 128 := by
          rw [UInt8.toNat_and]
          exact Nat.and_two_pow_sub_one_eq_mod b.toNat 7
        have hge : ¬ b.toNat < 128 := hb
        have hlt := b.toNat_lt
        omega
      have hsplit : (b.toNat - 128 + 128 * m) * 2 ^ i =
          (b.toNat - 128) * 2 ^ i + m * 2 ^ (i + 7) := by
        rw [Nat.add_mul, Nat.pow_add, Nat.mul_comm 128 m, Nat.mul_assoc, Nat.mul_comm (2 ^ i)]
      have hor := toNat_or_shift (n := b.toNat - 128) hres (by omega)
      have hres' : result.toNat + (b.toNat - 128) * 2 ^ i < 2 ^ (i + 7) := by
        have hlt := b.toNat_lt
        have hmul : (b.toNat - 128 + 1) * 2 ^ i ≤ 128 * 2 ^ i :=
          Nat.mul_le_mul_right _ (by omega)
        rw [Nat.add_mul, Nat.one_mul] at hmul
        rw [pow_add]
        omega
      obtain ⟨r, s', hrun', hr, hs', hreads'⟩ := ih fuel (i + 7) _ hs₁ hparse'
        (by omega) (by rw [hor]; exact hres') (by rw [hor]; omega) (by omega)
      refine ⟨r, s', ?_, by rw [hr, hor]; omega, hs', hreads.trans hreads'⟩
      rw [unpack_round fuel (by omega) hrun, if_neg hb, hlow]
      exact hrun'

/-- **Reading any bytes.** The reader runs out of bytes, or it takes the groups of one number, or it
    runs out of rounds before the last group. -/
theorem Stream.unpack_any (fuel i : Nat) (result : BitVec w) (hs : Stream s L q)
    (hfuel : w ≤ i + 7 * fuel) :
    ∃ r s' left, ByteArray.unpack fuel i result s = .ok (r, s') ∧ Stream s' L left ∧ Reads s s' ∧
      left.length ≤ q.length ∧ ((r = none ∧ left = []) ∨
        (∃ v n, r = some v ∧ parse q = some (n, left) ∧
          i + 7 * (q.length - left.length) < w + 7) ∨
        (∃ v, r = some v ∧ w ≤ i + 7 * (q.length - left.length) ∧
          ∀ n rest, parse q = some (n, rest) → rest.length < left.length)) := by
  induction q generalizing i result s fuel with
  | nil =>
    by_cases hi : w ≤ i
    · refine ⟨some result, s, [], unpack_done hi, hs, ⟨rfl, rfl⟩, le_rfl,
        .inr (.inr ⟨result, rfl, ?_, ?_⟩)⟩
      · omega
      · intro n rest h
        cases h
    · obtain ⟨fuel, rfl⟩ := Nat.exists_eq_succ_of_ne_zero (show fuel ≠ 0 by omega)
      refine ⟨none, s, [], ?_, hs, ⟨rfl, rfl⟩, le_rfl, .inl ⟨rfl, rfl⟩⟩
      exact unpack_end fuel (by omega) hs.readFuint8_nil
  | cons b bytes ih =>
    by_cases hi : w ≤ i
    · refine ⟨some result, s, b :: bytes, unpack_done hi, hs, ⟨rfl, rfl⟩, le_rfl,
        .inr (.inr ⟨result, rfl, ?_, ?_⟩)⟩
      · omega
      · intro n rest h
        exact parse_length h
    · obtain ⟨fuel, rfl⟩ := Nat.exists_eq_succ_of_ne_zero (show fuel ≠ 0 by omega)
      obtain ⟨s₁, hrun, hs₁, hreads⟩ := hs.readFuint8
      by_cases hb : b < 128
      · refine ⟨some (result ||| (BitVec.ofNat w b.toNat <<< i)), s₁, bytes, ?_, hs₁, hreads,
          Nat.le_succ _, .inr (.inl ⟨_, b.toNat, rfl, ?_, ?_⟩)⟩
        · rw [unpack_round fuel (by omega) hrun]
          exact if_pos hb
        · rw [parse, if_pos hb]
        · rw [List.length_cons]
          omega
      · -- one round for the byte, and what the others make of the rest
        obtain ⟨r, s', left, hrun', hs', hreads', hle, hcases⟩ := ih fuel (i + 7)
          (result ||| (BitVec.ofNat w (b &&& 0x7f).toNat <<< i)) hs₁ (by omega)
        refine ⟨r, s', left, ?_, hs', hreads.trans hreads', Nat.le_succ_of_le hle, ?_⟩
        · rw [unpack_round fuel (by omega) hrun, if_neg hb]
          exact hrun'
        · rcases hcases with h | ⟨v, n, hv, hparse, hrounds⟩ | ⟨v, hv, hrounds, hmore⟩
          · exact .inl h
          · have hshort := parse_length hparse
            refine .inr (.inl ⟨v, _, hv, by rw [parse, if_neg hb, hparse, Option.map_some], ?_⟩)
            rw [List.length_cons]
            omega
          · refine .inr (.inr ⟨v, hv, ?_, ?_⟩)
            · rw [List.length_cons]
              omega
            · intro n rest h
              rw [parse, if_neg hb] at h
              obtain ⟨⟨m, rest'⟩, hparse, heq⟩ := Option.map_eq_some_iff.mp h
              obtain ⟨-, rfl⟩ := Prod.mk.inj heq
              exact hmore m rest' hparse

end

/-! ### What is written is read -/

/-- What `write` puts into an array in front of `rest` comes back by `read`, and `rest` is left. -/
def RoundTrip {α : Type} (s : ByteArray) (write : ByteArray → α → Except Fault ByteArray)
    (read : ByteArray → Except Fault (Option α × ByteArray)) (v : α) (rest : List UInt8) : Prop :=
  ∃ s₁ s₂ s₃, write s v = .ok s₁ ∧ s₁.write rest = .ok s₂ ∧ read s₂ = .ok (some v, s₃) ∧
    s₃.toString = .ok (some rest)

/-- The length of the encoding of a number of `n.size` bits. -/
def varintLength (n : Nat) : Nat := max 1 ((n.size + 6) / 7)

theorem pack32_eq (v : UInt32) : pack 32 v.toBitVec = .ok (groups v.toNat) :=
  pack_eq (by decide) (lt_of_lt_of_le v.toNat_lt (by decide))

theorem pack64_eq (v : UInt64) : pack 64 v.toBitVec = .ok (groups v.toNat) :=
  pack_eq (by decide) (lt_of_lt_of_le v.toNat_lt (by decide))

/-- The scratch array of `writeUint32` has 5 bytes. -/
theorem varintLength_le32 (v : UInt32) : varintLength v.toNat ≤ 5 := by
  have hsize : v.toNat.size ≤ 32 := Nat.size_le.mpr v.toNat_lt
  unfold varintLength
  omega

/-- The scratch array of `writeUint64` has 10 bytes. -/
theorem varintLength_le64 (v : UInt64) : varintLength v.toNat ≤ 10 := by
  have hsize : v.toNat.size ≤ 64 := Nat.size_le.mpr v.toNat_lt
  unfold varintLength
  omega

theorem writeUint32_eq (s : ByteArray) (v : UInt32) :
    s.writeUint32 v = s.write (groups v.toNat) := by
  simp only [writeUint32, pack32_eq, bind, Except.bind]

theorem writeUint64_eq (s : ByteArray) (v : UInt64) :
    s.writeUint64 v = s.write (groups v.toNat) := by
  simp only [writeUint64, pack64_eq, bind, Except.bind]

section
variable {s : ByteArray} {L : List Nat} {q rest : List UInt8}

/-- `readUint32` of a number of no more than five groups. -/
theorem Stream.readUint32 {n : Nat} (hs : Stream s L q) (hparse : parse q = some (n, rest))
    (hlen : q.length - rest.length ≤ 5) (hn : n < 2 ^ 32) :
    ∃ s', s.readUint32 = .ok (some (UInt32.ofNat n), s') ∧ Stream s' L rest ∧ Reads s s' := by
  obtain ⟨r, s', hrun, hr, hs'⟩ := hs.unpack 32 0 0#32 hparse
    (by omega) (by decide) (by simpa using hn) (by omega)
  have hv : UInt32.ofBitVec r = UInt32.ofNat n := by
    apply UInt32.toNat_inj.mp
    rw [UInt32.toNat_ofNat', Nat.mod_eq_of_lt hn]
    simpa using hr
  refine ⟨s', ?_, hs'⟩
  simp only [ByteArray.readUint32, hrun, bind, Except.bind, Option.map_some, hv]

/-- `readUint64` of a number of no more than ten groups. -/
theorem Stream.readUint64 {n : Nat} (hs : Stream s L q) (hparse : parse q = some (n, rest))
    (hlen : q.length - rest.length ≤ 10) (hn : n < 2 ^ 64) :
    ∃ s', s.readUint64 = .ok (some (UInt64.ofNat n), s') ∧ Stream s' L rest ∧ Reads s s' := by
  obtain ⟨r, s', hrun, hr, hs'⟩ := hs.unpack 64 0 0#64 hparse
    (by omega) (by decide) (by simpa using hn) (by omega)
  have hv : UInt64.ofBitVec r = UInt64.ofNat n := by
    apply UInt64.toNat_inj.mp
    rw [UInt64.toNat_ofNat', Nat.mod_eq_of_lt hn]
    simpa using hr
  refine ⟨s', ?_, hs'⟩
  simp only [ByteArray.readUint64, hrun, bind, Except.bind, Option.map_some, hv]

/-- The length of what `writeUint32` and `writeUint64` write. -/
theorem length_groups_append (n : Nat) (rest : List UInt8) :
    (groups n ++ rest).length - rest.length = varintLength n := by
  rw [List.length_append, Nat.add_sub_cancel]
  exact length_groups n

theorem Stream.readGroups32 (v : UInt32) (hs : Stream s L (groups v.toNat ++ rest)) :
    ∃ s', s.readUint32 = .ok (some v, s') ∧ Stream s' L rest ∧ Reads s s' := by
  have h := hs.readUint32 (parse_groups v.toNat rest)
    (by rw [length_groups_append]; exact varintLength_le32 v) v.toNat_lt
  rwa [UInt32.ofNat_toNat] at h

theorem Stream.readGroups64 (v : UInt64) (hs : Stream s L (groups v.toNat ++ rest)) :
    ∃ s', s.readUint64 = .ok (some v, s') ∧ Stream s' L rest ∧ Reads s s' := by
  have h := hs.readUint64 (parse_groups v.toNat rest)
    (by rw [length_groups_append]; exact varintLength_le64 v) v.toNat_lt
  rwa [UInt64.ofNat_toNat] at h

/-- A writer that writes `bytes`, and a reader that takes `bytes`, whatever follows them. -/
theorem Stream.roundTrip {α : Type} {write : ByteArray → α → Except Fault ByteArray}
    {read : ByteArray → Except Fault (Option α × ByteArray)} {v : α} {bytes : List UInt8}
    (hs : Stream s L []) (hwrite : write s v = s.write bytes)
    (hread : ∀ s, Stream s L (bytes ++ rest) → ∃ s', read s = .ok (some v, s') ∧ Stream s' L rest)
    (hroom : bytes.length + rest.length ≤ s.getCapacity) : RoundTrip s write read v rest := by
  obtain ⟨s₁, hrun₁, hs₁, hcap, -⟩ := hs.write_fits bytes (by omega)
  obtain ⟨s₂, hrun₂, hs₂, -⟩ := hs₁.write_fits rest (by omega)
  rw [List.nil_append] at hs₂
  obtain ⟨s₃, hrun₃, hs₃⟩ := hread s₂ hs₂
  exact ⟨s₁, s₂, s₃, hwrite.trans hrun₁, hrun₂, hrun₃, hs₃.toString⟩

end

/-- **The variable-width codec.** In an empty `ByteArray` with room for all the data every number
    comes back, whatever follows it. Its encoding has a seventh of its bits in bytes, rounded up,
    fits into the scratch array, and is a prefix of no other one; zigzag is undone. -/
theorem varint_roundTrip {B : Nat} {s : ByteArray} {b : List UInt8}
    (h : (history B).Reachable (s, b)) (hempty : s.getReadSize = 0) :
    (∀ (v : UInt32) (rest : List UInt8), varintLength v.toNat + rest.length ≤ s.getCapacity →
      RoundTrip s writeUint32 readUint32 v rest) ∧
    (∀ (v : UInt64) (rest : List UInt8), varintLength v.toNat + rest.length ≤ s.getCapacity →
      RoundTrip s writeUint64 readUint64 v rest) ∧
    (∀ (v : Int32) (rest : List UInt8),
      varintLength (encodeZigzag32 v).toNat + rest.length ≤ s.getCapacity →
        RoundTrip s writeInt32 readInt32 v rest) ∧
    (∀ (v : Int64) (rest : List UInt8),
      varintLength (encodeZigzag64 v).toNat + rest.length ≤ s.getCapacity →
        RoundTrip s writeInt64 readInt64 v rest) ∧
    (∀ v : UInt32, ∃ tmp, pack 32 v.toBitVec = .ok tmp ∧ tmp.length = varintLength v.toNat ∧
      tmp.length ≤ 5 ∧
      ∀ v' tmp', pack 32 (UInt32.toBitVec v') = .ok tmp' → tmp <+: tmp' → v = v') ∧
    (∀ v : UInt64, ∃ tmp, pack 64 v.toBitVec = .ok tmp ∧ tmp.length = varintLength v.toNat ∧
      tmp.length ≤ 10 ∧
      ∀ v' tmp', pack 64 (UInt64.toBitVec v') = .ok tmp' → tmp <+: tmp' → v = v') ∧
    (∀ v : Int32, decodeZigzag32 (encodeZigzag32 v) = v) ∧
    (∀ v : Int64, decodeZigzag64 (encodeZigzag64 v) = v) := by
  obtain ⟨⟨L, hw⟩, -⟩ := reachable_written h
  have hs := hw.stream_nil hempty
  have hlen : ∀ n, (groups n).length = varintLength n := length_groups
  refine ⟨fun v rest hroom => ?_, fun v rest hroom => ?_, fun v rest hroom => ?_,
    fun v rest hroom => ?_, fun v => ?_, fun v => ?_, decodeZigzag32_encodeZigzag32,
    decodeZigzag64_encodeZigzag64⟩
  · refine hs.roundTrip (writeUint32_eq s v) (fun s₂ hs₂ => ?_) (by rwa [hlen])
    obtain ⟨s₃, hrun, hs₃, -⟩ := hs₂.readGroups32 v
    exact ⟨s₃, hrun, hs₃⟩
  · refine hs.roundTrip (writeUint64_eq s v) (fun s₂ hs₂ => ?_) (by rwa [hlen])
    obtain ⟨s₃, hrun, hs₃, -⟩ := hs₂.readGroups64 v
    exact ⟨s₃, hrun, hs₃⟩
  · refine hs.roundTrip (writeUint32_eq s (encodeZigzag32 v)) (fun s₂ hs₂ => ?_) (by rwa [hlen])
    obtain ⟨s₃, hrun, hs₃, -⟩ := hs₂.readGroups32 (encodeZigzag32 v)
    refine ⟨s₃, ?_, hs₃⟩
    simp only [readInt32, hrun, bind, Except.bind, Option.map_some, decodeZigzag32_encodeZigzag32]
  · refine hs.roundTrip (writeUint64_eq s (encodeZigzag64 v)) (fun s₂ hs₂ => ?_) (by rwa [hlen])
    obtain ⟨s₃, hrun, hs₃, -⟩ := hs₂.readGroups64 (encodeZigzag64 v)
    refine ⟨s₃, ?_, hs₃⟩
    simp only [readInt64, hrun, bind, Except.bind, Option.map_some, decodeZigzag64_encodeZigzag64]
  · refine ⟨_, pack32_eq v, hlen _, by rw [hlen]; exact varintLength_le32 v, ?_⟩
    intro v' tmp' htmp hprefix
    rw [pack32_eq, Except.ok.injEq] at htmp
    exact UInt32.toNat_inj.mp (groups_prefix_inj (htmp ▸ hprefix))
  · refine ⟨_, pack64_eq v, hlen _, by rw [hlen]; exact varintLength_le64 v, ?_⟩
    intro v' tmp' htmp hprefix
    rw [pack64_eq, Except.ok.injEq] at htmp
    exact UInt64.toNat_inj.mp (groups_prefix_inj (htmp ▸ hprefix))

/-- The least `int64_t`, with a byte behind it. -/
theorem varint_roundTrip_min :
    RoundTrip (new 16) writeInt64 readInt64 (-9223372036854775808) [7] :=
  (varint_roundTrip (B := 16) (.init ⟨rfl, by decide, by decide⟩) rfl).2.2.2.1 _ _ (by decide)

end LimWebserver.ByteArray
