import LimWebserver.Lib.Bytes
import LimWebserver.Net.ByteArrayHistory

namespace LimWebserver.ByteArray

open LimWebserver.Lib LimWebserver.Lib.Bytes

/-!
# Net — the fixed-width codec of `ByteArray`

* `memory`, `hostToNetwork`, `networkToHost` — integers on a little-endian host;
* `writeFint8` .. `writeDouble`, `readFint8` .. `readDouble` — the writers and readers;
* `Fixed`, `Kind` — a value with its type, and the type;
* `Fixed.wire` — big-endian order; `Fixed.sent` — what the writers write;
* `Codec` — what comes of a list of values; `fint32_not_codec` — not always the same list;
* `codec_iff_swap` — exactly when.
-/

/-! ### The writers and readers -/

/-- The memory of an integer of `k` bytes. -/
def memory (k n : Nat) : List UInt8 := toLE k n

/-- `htobe16`, `htobe32` and `htobe64`. -/
def hostToNetwork (k n : Nat) : Nat := swap k n

/-- `be16toh`, `be32toh` and `be64toh`. -/
def networkToHost (k n : Nat) : Nat := swap k n

variable (s : ByteArray)

def writeFint8 (value : Int8) : Except Fault ByteArray := s.write (memory 1 value.toUInt8.toNat)

def writeFuint8 (value : UInt8) : Except Fault ByteArray := s.write (memory 1 value.toNat)

def writeFint16 (value : Int16) : Except Fault ByteArray :=
  let v := hostToNetwork 2 value.toUInt16.toNat
  s.write (memory 2 v)

def writeFuint16 (value : UInt16) : Except Fault ByteArray :=
  let v := hostToNetwork 2 value.toNat
  s.write (memory 2 v)

/-- The converted `v` is not what is written. -/
def writeFint32 (value : Int32) : Except Fault ByteArray :=
  let _v := hostToNetwork 4 value.toUInt32.toNat
  s.write (memory 4 value.toUInt32.toNat)

def writeFuint32 (value : UInt32) : Except Fault ByteArray :=
  let v := hostToNetwork 4 value.toNat
  s.write (memory 4 v)

def writeFint64 (value : Int64) : Except Fault ByteArray :=
  let v := hostToNetwork 8 value.toUInt64.toNat
  s.write (memory 8 v)

def writeFuint64 (value : UInt64) : Except Fault ByteArray :=
  let v := hostToNetwork 8 value.toNat
  s.write (memory 8 v)

/-- `writeFloat` of the number with these bits. -/
def writeFloat (bits : UInt32) : Except Fault ByteArray := s.writeFuint32 bits

/-- `writeDouble` of the number with these bits. -/
def writeDouble (bits : UInt64) : Except Fault ByteArray := s.writeFuint64 bits

/-- `read(&v, sizeof(v))`; nothing when it throws. -/
def readMemory (k : Nat) : Except Fault (Option Nat × ByteArray) := do
  let (buf, s) ← s.read k
  .ok (buf.map ofLE, s)

/-- The macro `XX`. -/
def readXX {α : Type} (k : Nat) (type : Nat → α) : Except Fault (Option α × ByteArray) := do
  let (v, s) ← s.readMemory k
  .ok (v.map fun v => type (networkToHost k v), s)

def readFint8 : Except Fault (Option Int8 × ByteArray) := do
  let (v, s) ← s.readMemory 1
  .ok (v.map fun v => (UInt8.ofNat v).toInt8, s)

def readFuint8 : Except Fault (Option UInt8 × ByteArray) := do
  let (v, s) ← s.readMemory 1
  .ok (v.map UInt8.ofNat, s)

def readFint16 : Except Fault (Option Int16 × ByteArray) :=
  s.readXX 2 fun v => (UInt16.ofNat v).toInt16

def readFuint16 : Except Fault (Option UInt16 × ByteArray) := s.readXX 2 UInt16.ofNat

def readFint32 : Except Fault (Option Int32 × ByteArray) :=
  s.readXX 4 fun v => (UInt32.ofNat v).toInt32

def readFuint32 : Except Fault (Option UInt32 × ByteArray) := s.readXX 4 UInt32.ofNat

def readFint64 : Except Fault (Option Int64 × ByteArray) :=
  s.readXX 8 fun v => (UInt64.ofNat v).toInt64

def readFuint64 : Except Fault (Option UInt64 × ByteArray) := s.readXX 8 UInt64.ofNat

def readFloat : Except Fault (Option UInt32 × ByteArray) := s.readFuint32

def readDouble : Except Fault (Option UInt64 × ByteArray) := s.readFuint64

/-! ### Values of any of the types -/

/-- The types. -/
inductive Kind
  | int8 | uint8 | int16 | uint16 | int32 | uint32 | int64 | uint64 | float | double
  deriving DecidableEq, Repr

/-- A value; a floating-point number is given by its bits. -/
inductive Fixed
  | int8 (v : Int8)
  | uint8 (v : UInt8)
  | int16 (v : Int16)
  | uint16 (v : UInt16)
  | int32 (v : Int32)
  | uint32 (v : UInt32)
  | int64 (v : Int64)
  | uint64 (v : UInt64)
  | float (bits : UInt32)
  | double (bits : UInt64)
  deriving DecidableEq

/-- `sizeof` -/
def Kind.size : Kind → Nat
  | .int8 | .uint8 => 1
  | .int16 | .uint16 => 2
  | .int32 | .uint32 | .float => 4
  | .int64 | .uint64 | .double => 8

namespace Fixed

def kind : Fixed → Kind
  | .int8 _ => .int8
  | .uint8 _ => .uint8
  | .int16 _ => .int16
  | .uint16 _ => .uint16
  | .int32 _ => .int32
  | .uint32 _ => .uint32
  | .int64 _ => .int64
  | .uint64 _ => .uint64
  | .float _ => .float
  | .double _ => .double

/-- The bits, as an unsigned number. -/
def bits : Fixed → Nat
  | .int8 v => v.toUInt8.toNat
  | .uint8 v => v.toNat
  | .int16 v => v.toUInt16.toNat
  | .uint16 v => v.toNat
  | .int32 v => v.toUInt32.toNat
  | .uint32 v => v.toNat
  | .int64 v => v.toUInt64.toNat
  | .uint64 v => v.toNat
  | .float v => v.toNat
  | .double v => v.toNat

/-- The matching writer. -/
def write (s : ByteArray) : Fixed → Except Fault ByteArray
  | .int8 v => s.writeFint8 v
  | .uint8 v => s.writeFuint8 v
  | .int16 v => s.writeFint16 v
  | .uint16 v => s.writeFuint16 v
  | .int32 v => s.writeFint32 v
  | .uint32 v => s.writeFuint32 v
  | .int64 v => s.writeFint64 v
  | .uint64 v => s.writeFuint64 v
  | .float v => s.writeFloat v
  | .double v => s.writeDouble v

/-- The value in big-endian order. -/
def wire (v : Fixed) : List UInt8 := toBE v.kind.size v.bits

/-- What the writers write. -/
def sent : Fixed → List UInt8
  | .int32 v => memory 4 v.toUInt32.toNat
  | v => v.wire

end Fixed

namespace Kind

/-- The value of a type that has these bits. -/
def ofBits : Kind → Nat → Fixed
  | .int8, n => .int8 (UInt8.ofNat n).toInt8
  | .uint8, n => .uint8 (UInt8.ofNat n)
  | .int16, n => .int16 (UInt16.ofNat n).toInt16
  | .uint16, n => .uint16 (UInt16.ofNat n)
  | .int32, n => .int32 (UInt32.ofNat n).toInt32
  | .uint32, n => .uint32 (UInt32.ofNat n)
  | .int64, n => .int64 (UInt64.ofNat n).toInt64
  | .uint64, n => .uint64 (UInt64.ofNat n)
  | .float, n => .float (UInt32.ofNat n)
  | .double, n => .double (UInt64.ofNat n)

/-- The value of a type that was written as these bytes. -/
def decode (k : Kind) (buf : List UInt8) : Fixed := k.ofBits (networkToHost k.size (ofLE buf))

/-- A result with its type. -/
def tag {α : Type} (type : α → Fixed) (r : Option α × ByteArray) : Option Fixed × ByteArray :=
  (r.1.map type, r.2)

/-- The matching reader. -/
def read (s : ByteArray) : Kind → Except Fault (Option Fixed × ByteArray)
  | .int8 => s.readFint8.map (tag .int8)
  | .uint8 => s.readFuint8.map (tag .uint8)
  | .int16 => s.readFint16.map (tag .int16)
  | .uint16 => s.readFuint16.map (tag .uint16)
  | .int32 => s.readFint32.map (tag .int32)
  | .uint32 => s.readFuint32.map (tag .uint32)
  | .int64 => s.readFint64.map (tag .int64)
  | .uint64 => s.readFuint64.map (tag .uint64)
  | .float => s.readFloat.map (tag .float)
  | .double => s.readDouble.map (tag .double)

end Kind

/-- Write the values in turn. -/
def writeAll : ByteArray → List Fixed → Except Fault ByteArray
  | s, [] => .ok s
  | s, v :: vs => do
    let s ← v.write s
    writeAll s vs

/-- Read values of these types in turn; nothing when one of the readers throws. -/
def readAll : ByteArray → List Kind → Except Fault (Option (List Fixed) × ByteArray)
  | s, [] => .ok (some [], s)
  | s, k :: ks => do
    match ← k.read s with
    | (none, s) => .ok (none, s)
    | (some v, s) => do
      let (vs, s) ← readAll s ks
      .ok (vs.map (v :: ·), s)

/-! ### One value -/

namespace Fixed

theorem bits_lt (v : Fixed) : v.bits < 256 ^ v.kind.size := by
  cases v
  case int8 v => exact v.toUInt8.toNat_lt
  case uint8 v => exact v.toNat_lt
  case int16 v => exact v.toUInt16.toNat_lt
  case uint16 v => exact v.toNat_lt
  case int32 v => exact v.toUInt32.toNat_lt
  case uint32 v => exact v.toNat_lt
  case int64 v => exact v.toUInt64.toNat_lt
  case uint64 v => exact v.toNat_lt
  case float v => exact v.toNat_lt
  case double v => exact v.toNat_lt

@[simp] theorem length_wire (v : Fixed) : v.wire.length = v.kind.size := length_toBE _ _

@[simp] theorem length_sent (v : Fixed) : v.sent.length = v.kind.size := by
  cases v
  case int32 v => exact length_toLE _ _
  all_goals exact length_toBE _ _

theorem write_eq (s : ByteArray) (v : Fixed) : v.write s = s.write v.sent := by
  cases v
  -- a single byte has one order only, and an `int32_t` is not converted
  case int8 v => rfl
  case uint8 v => rfl
  case int32 v => rfl
  all_goals
    simp only [Fixed.write, writeFint16, writeFuint16, writeFuint32, writeFint64, writeFuint64,
      writeFloat, writeDouble, memory, hostToNetwork, toLE_swap, sent, wire]
    rfl

/-- An `int32_t` is in network order when its bytes read the same in both orders. -/
theorem sent_eq_wire_iff (v : Fixed) : v.sent = v.wire ↔
    ∀ x, v = .int32 x → hostToNetwork 4 x.toUInt32.toNat = x.toUInt32.toNat := by
  cases v
  case int32 v =>
    have hiff : v.toUInt32.toNat < 256 ^ 4 → (toLE 4 v.toUInt32.toNat = toBE 4 v.toUInt32.toNat ↔
      swap 4 v.toUInt32.toNat = v.toUInt32.toNat) := toLE_eq_toBE_iff
    simpa [sent, wire, memory, hostToNetwork, kind, Kind.size, bits] using
      hiff v.toUInt32.toNat_lt
  all_goals exact iff_of_true rfl fun x h => by cases h

end Fixed

namespace Kind

theorem ofNat_swap_one (n : Nat) : UInt8.ofNat (swap 1 n) = UInt8.ofNat n := by
  apply UInt8.toNat_inj.mp
  simp [swap, toLE, ofLE]

theorem ofBits_bits (v : Fixed) : v.kind.ofBits v.bits = v := by
  cases v <;> simp [Fixed.kind, Fixed.bits, ofBits]

theorem decode_wire (v : Fixed) : v.kind.decode v.wire = v := by
  have hswap : ofLE (toBE v.kind.size v.bits) = swap v.kind.size v.bits := by
    rw [swap, reverse_toLE]
  rw [decode, networkToHost, Fixed.wire, hswap, swap_swap v.bits_lt, ofBits_bits]

theorem bits_ofBits (k : Kind) {n : Nat} (hn : n < 256 ^ k.size) :
    (k.ofBits n).kind = k ∧ (k.ofBits n).bits = n := by
  cases k <;>
    simp_all [ofBits, Fixed.kind, Fixed.bits, size, UInt8.toNat_ofNat', UInt16.toNat_ofNat',
      UInt32.toNat_ofNat', UInt64.toNat_ofNat']

/-- Any bytes of the right number are those of a value. -/
theorem wire_decode (k : Kind) {buf : List UInt8} (hlen : buf.length = k.size) :
    (k.decode buf).kind = k ∧ (k.decode buf).wire = buf := by
  have hlt := ofBE_lt buf
  rw [hlen] at hlt
  obtain ⟨hkind, hbits⟩ := bits_ofBits k hlt
  rw [← swap_ofLE, hlen] at hkind hbits
  refine ⟨hkind, ?_⟩
  have hwire := toBE_ofBE buf
  rw [← swap_ofLE, hlen] at hwire
  rw [Fixed.wire, decode, networkToHost, hkind, hbits, hwire]

theorem read_eq (s : ByteArray) (k : Kind) :
    k.read s = (s.read k.size).map fun r => (r.1.map k.decode, r.2) := by
  cases k
  case int8 | uint8 =>
    simp only [read, readFint8, readFuint8, readMemory, size]
    cases s.read 1 with
    | error e => rfl
    | ok r =>
      obtain ⟨buf, s'⟩ := r
      cases buf with
      | none => rfl
      | some buf =>
        simp [bind, Except.bind, Except.map, tag, decode, ofBits, networkToHost, size,
          ofNat_swap_one]
  all_goals
    simp only [read, readFint16, readFuint16, readFint32, readFuint32, readFint64, readFuint64,
      readFloat, readDouble, readXX, readMemory, size]
    generalize s.read _ = x
    cases x with
    | error e => rfl
    | ok r =>
      obtain ⟨buf, s'⟩ := r
      cases buf <;> rfl

end Kind

/-! ### All values -/

section
variable {s : ByteArray} {L : List Nat} {q rest : List UInt8}

/-- **Writing.** -/
theorem Stream.writeAll {vs : List Fixed} (hs : Stream s L q)
    (hroom : (vs.map fun v => v.kind.size).sum ≤ s.getCapacity) :
    ∃ s', s.writeAll vs = .ok s' ∧ Stream s' L (q ++ vs.flatMap Fixed.sent) := by
  induction vs generalizing s q with
  | nil => exact ⟨s, rfl, by simpa using hs⟩
  | cons v vs ih =>
    rw [List.map_cons, List.sum_cons] at hroom
    have hlen := v.length_sent
    obtain ⟨s₁, hrun₁, hs₁, hcap, -⟩ := hs.write_fits v.sent (by omega)
    obtain ⟨s₂, hrun₂, hs₂⟩ := ih hs₁ (by omega)
    refine ⟨s₂, ?_, ?_⟩
    · simp only [ByteArray.writeAll, v.write_eq, hrun₁, bind, Except.bind, hrun₂]
    · rw [List.append_assoc, ← List.flatMap_cons] at hs₂
      exact hs₂

theorem Kind.size_pos (k : Kind) : k.size ≠ 0 := by
  cases k <;> decide

/-- **Reading.** -/
theorem Stream.readAll {vs : List Fixed} (hs : Stream s L (vs.flatMap Fixed.wire ++ rest)) :
    ∃ s', s.readAll (vs.map Fixed.kind) = .ok (some vs, s') ∧ Stream s' L rest := by
  induction vs generalizing s with
  | nil => exact ⟨s, rfl, hs⟩
  | cons v vs ih =>
    rw [List.flatMap_cons, List.append_assoc] at hs
    have hlen := v.length_wire
    obtain ⟨s₁, hrun₁, hs₁, -⟩ := hs.read (n := v.kind.size)
      (by rw [List.length_append]; omega) (.inl v.kind.size_pos)
    rw [List.take_append_of_le_length (by omega), List.take_of_length_le (by omega)] at hrun₁
    rw [← hlen, List.drop_left] at hs₁
    obtain ⟨s₂, hrun₂, hs₂⟩ := ih hs₁
    refine ⟨s₂, ?_, hs₂⟩
    simp only [List.map_cons, ByteArray.readAll, Kind.read_eq, hrun₁, bind, Except.bind, Except.map,
      Option.map_some, Kind.decode_wire, hrun₂]

end

/-- **The codec.** The values are written in network order, come back, and nothing is left. -/
def Codec (s : ByteArray) (vs : List Fixed) : Prop :=
  ∃ s₁ s₂, s.writeAll vs = .ok s₁ ∧ s₁.toString = .ok (some (vs.flatMap Fixed.wire)) ∧
    s₁.readAll (vs.map Fixed.kind) = .ok (some vs, s₂) ∧ s₂.getReadSize = 0

/-- **`writeFint32` writes its argument.** The bytes of 1 are in the order of the host. -/
theorem fint32_not_codec : ¬ ∀ (B : Nat) (s : ByteArray) (b : List UInt8),
    (history B).Reachable (s, b) → s.getReadSize = 0 → ∀ vs : List Fixed,
      (vs.map fun v => v.kind.size).sum ≤ s.getCapacity → Codec s vs := by
  intro h
  obtain ⟨s₁, s₂, hrun, hstring, -⟩ :=
    h 16 (new 16) [] (.init ⟨rfl, by decide, by decide⟩) rfl [.int32 1] (by decide)
  have hbytes : ((new 16).writeAll [.int32 1] >>= ByteArray.toString) =
      .ok (some [1, 0, 0, 0]) := by
    decide +kernel
  rw [hrun] at hbytes
  exact absurd (hstring.symm.trans hbytes) (by decide)

/-- Values of equal sizes lie in the same places. -/
theorem flatMap_sent_inj : ∀ {vs : List Fixed},
    vs.flatMap Fixed.sent = vs.flatMap Fixed.wire → ∀ v ∈ vs, v.sent = v.wire
  | [], _, v, hv => absurd hv List.not_mem_nil
  | v :: vs, h, w, hw => by
    rw [List.flatMap_cons, List.flatMap_cons] at h
    obtain ⟨hfirst, hrest⟩ := List.append_inj h (by rw [v.length_sent, v.length_wire])
    rcases List.mem_cons.mp hw with rfl | hw
    · exact hfirst
    · exact flatMap_sent_inj hrest w hw

/-- **The fixed-width codec, exactly.** In an empty `ByteArray` with room for all of them the values
    are written in network order and come back exactly when every `int32_t` among them is the number
    with its bytes in the other order. -/
theorem codec_iff_swap {B : Nat} {s : ByteArray} {b : List UInt8}
    (h : (history B).Reachable (s, b)) (hempty : s.getReadSize = 0) (vs : List Fixed)
    (hroom : (vs.map fun v => v.kind.size).sum ≤ s.getCapacity) :
    Codec s vs ↔
      ∀ x : Int32, .int32 x ∈ vs → hostToNetwork 4 x.toUInt32.toNat = x.toUInt32.toNat := by
  obtain ⟨⟨L, hw⟩, -⟩ := reachable_written h
  obtain ⟨s₁, hrun, hs₁⟩ := (hw.stream_nil hempty).writeAll hroom
  rw [List.nil_append] at hs₁
  constructor
  · rintro ⟨s₁', s₂, hrun', hstring, -⟩ x hx
    obtain rfl : s₁ = s₁' := Except.ok.inj (hrun.symm.trans hrun')
    rw [hs₁.toString] at hstring
    have hsent := flatMap_sent_inj (Option.some.inj (Except.ok.inj hstring)) _ hx
    exact (Fixed.sent_eq_wire_iff _).mp hsent x rfl
  · intro hswap
    have hsent : ∀ v ∈ vs, v.sent = v.wire := fun v hv =>
      (Fixed.sent_eq_wire_iff v).mpr fun x hx => hswap x (hx ▸ hv)
    have hflat : vs.flatMap Fixed.sent = vs.flatMap Fixed.wire := by
      rw [List.flatMap_def, List.flatMap_def, List.map_congr_left hsent]
    rw [hflat] at hs₁
    rw [← List.append_nil (vs.flatMap Fixed.wire)] at hs₁
    obtain ⟨s₂, hrun₂, hs₂⟩ := hs₁.readAll
    rw [List.append_nil] at hs₁
    exact ⟨s₁, s₂, hrun, hs₁.toString, hrun₂, hs₂.getReadSize⟩

/-- Negative numbers, a float and an `int32_t` that reads the same in both orders. -/
theorem codec_iff_swap_mixed :
    Codec (new 16) [.int8 (-1), .int16 (-2), .float 0x3f800000, .int32 0x01020201] := by
  refine (codec_iff_swap (B := 16) (.init ⟨rfl, by decide, by decide⟩) rfl _ (by decide)).mpr ?_
  intro x hx
  obtain rfl : x = 0x01020201 := by simpa using hx
  decide

end LimWebserver.ByteArray
