import LimWebserver.Net.ByteArrayVarint

namespace LimWebserver.ByteArray

open LimWebserver.Lib.Bytes LimWebserver.Lib.Varint

/-!
# Net — strings behind their length

* `writeStringF16` .. `writeStringVint`, `readStringF16` .. `readStringVint`;
* `Format` — the four formats; `Format.head` — the length as it is written;
* `Stream.readLength`, `Stream.readString` — the two parts of a reader;
* `Safe` — a string that is written comes back; `stringF16_not_safe` — a long one does not;
* `safe_iff` — exactly which strings do.
-/

/-! ### The writers and readers -/

/-- How a reader ends. -/
inductive Read (α : Type)
  | value (v : α)
  /-- `std::out_of_range` is thrown -/
  | outOfRange
  /-- `resize` throws `std::length_error` or `std::bad_alloc` -/
  | noMemory
  deriving DecidableEq

/-- What a reader leaves behind. -/
structure Reading (α : Type) where
  result : Read α
  array : ByteArray
  /-- the length of the string that has been allocated -/
  allocated : Nat

variable (s : ByteArray)

def writeStringF16 (value : List UInt8) : Except Fault ByteArray := do
  let s ← s.writeFuint16 (UInt16.ofNat value.length)
  s.write value

def writeStringF32 (value : List UInt8) : Except Fault ByteArray := do
  let s ← s.writeFuint32 (UInt32.ofNat value.length)
  s.write value

def writeStringF64 (value : List UInt8) : Except Fault ByteArray := do
  let s ← s.writeFuint64 (UInt64.ofNat value.length)
  s.write value

def writeStringVint (value : List UInt8) : Except Fault ByteArray := do
  let s ← s.writeUint64 (UInt64.ofNat value.length)
  s.write value

/-- `buff.resize(len)` and `read(&buff[0], len)`, where strings of up to `max_size` bytes can be
    allocated; nothing has been allocated when the length has not been read. -/
def readString (max_size : Nat) : Option Nat → Except Fault (Reading (List UInt8))
  | none => .ok ⟨.outOfRange, s, 0⟩
  | some len =>
    if max_size < len then .ok ⟨.noMemory, s, 0⟩
    else do
      match ← s.read len with
      | (none, s) => .ok ⟨.outOfRange, s, len⟩
      | (some buff, s) => .ok ⟨.value buff, s, len⟩

def readStringF16 (max_size : Nat) : Except Fault (Reading (List UInt8)) := do
  let (len, s) ← s.readFuint16
  s.readString max_size (len.map UInt16.toNat)

def readStringF32 (max_size : Nat) : Except Fault (Reading (List UInt8)) := do
  let (len, s) ← s.readFuint32
  s.readString max_size (len.map UInt32.toNat)

def readStringF64 (max_size : Nat) : Except Fault (Reading (List UInt8)) := do
  let (len, s) ← s.readFuint64
  s.readString max_size (len.map UInt64.toNat)

def readStringVint (max_size : Nat) : Except Fault (Reading (List UInt8)) := do
  let (len, s) ← s.readUint64
  s.readString max_size (len.map UInt64.toNat)

/-! ### The formats -/

inductive Format
  | f16 | f32 | f64 | vint
  deriving DecidableEq, Repr

namespace Format

/-- The bits of a length. -/
def bits : Format → Nat
  | .f16 => 16
  | .f32 => 32
  | .f64 => 64
  | .vint => 64

def write (s : ByteArray) : Format → List UInt8 → Except Fault ByteArray
  | .f16 => s.writeStringF16
  | .f32 => s.writeStringF32
  | .f64 => s.writeStringF64
  | .vint => s.writeStringVint

def read (max_size : Nat) (s : ByteArray) : Format → Except Fault (Reading (List UInt8))
  | .f16 => s.readStringF16 max_size
  | .f32 => s.readStringF32 max_size
  | .f64 => s.readStringF64 max_size
  | .vint => s.readStringVint max_size

/-- The length as it is written, in network order or in groups. -/
def head : Format → Nat → List UInt8
  | .f16, n => toBE 2 n
  | .f32, n => toBE 4 n
  | .f64, n => toBE 8 n
  | .vint, n => groups (n % 2 ^ 64)

/-- The reader of the length. -/
def readLength (s : ByteArray) : Format → Except Fault (Option Nat × ByteArray)
  | .f16 => s.readFuint16.map fun r => (r.1.map UInt16.toNat, r.2)
  | .f32 => s.readFuint32.map fun r => (r.1.map UInt32.toNat, r.2)
  | .f64 => s.readFuint64.map fun r => (r.1.map UInt64.toNat, r.2)
  | .vint => s.readUint64.map fun r => (r.1.map UInt64.toNat, r.2)

theorem write_eq (s : ByteArray) (f : Format) (str : List UInt8) :
    f.write s str = (do
      let s ← s.write (f.head str.length)
      s.write str) := by
  cases f
  case vint =>
    simp only [write, writeStringVint, writeUint64_eq, head, UInt64.toNat_ofNat']
  all_goals
    simp only [write, writeStringF16, writeStringF32, writeStringF64, writeFuint16, writeFuint32,
      writeFuint64, memory, hostToNetwork, toLE_swap, head, UInt16.toNat_ofNat',
      UInt32.toNat_ofNat', UInt64.toNat_ofNat']
  · have h : toBE 2 (str.length % 2 ^ 16) = toBE 2 str.length := toBE_mod 2 _
    rw [h]
  · have h : toBE 4 (str.length % 2 ^ 32) = toBE 4 str.length := toBE_mod 4 _
    rw [h]
  · have h : toBE 8 (str.length % 2 ^ 64) = toBE 8 str.length := toBE_mod 8 _
    rw [h]

theorem read_eq (max_size : Nat) (s : ByteArray) (f : Format) :
    f.read max_size s = (do
      let (len, s) ← f.readLength s
      s.readString max_size len) := by
  cases f
  case f16 =>
    simp only [read, readStringF16, readLength]
    cases s.readFuint16 <;> rfl
  case f32 =>
    simp only [read, readStringF32, readLength]
    cases s.readFuint32 <;> rfl
  case f64 =>
    simp only [read, readStringF64, readLength]
    cases s.readFuint64 <;> rfl
  case vint =>
    simp only [read, readStringVint, readLength]
    cases s.readUint64 <;> rfl

end Format

/-! ### The two parts of a reader -/

section
variable {s : ByteArray} {L : List Nat} {q rest buf : List UInt8} {n max_size : Nat}

/-- The macro `XX` when there are enough bytes. -/
theorem Stream.readXX {α : Type} {k : Nat} (type : Nat → α) (hs : Stream s L (buf ++ q))
    (hk : buf.length = k) (hpos : k ≠ 0) :
    ∃ s', s.readXX k type = .ok (some (type (ofBE buf)), s') ∧ Stream s' L q ∧ Reads s s' := by
  obtain ⟨s', hrun, hs', -, hw, -, hcap⟩ := hs.read (n := k)
    (by rw [List.length_append]; omega) (.inl hpos)
  rw [← hk, List.take_left] at hrun
  rw [← hk, List.drop_left] at hs'
  refine ⟨s', ?_, hs', hw, hcap⟩
  simp only [ByteArray.readXX, readMemory, ← hk, hrun, bind, Except.bind, Option.map_some,
    networkToHost, swap_ofLE]

/-- The macro `XX` when there are not. -/
theorem Stream.readXX_outOfRange {α : Type} {k : Nat} (type : Nat → α) (hs : Stream s L q)
    (hk : q.length < k) : s.readXX k type = .ok (none, s) := by
  simp [ByteArray.readXX, readMemory, hs.read_outOfRange hk, bind, Except.bind]

/-- **Reading the length.** -/
theorem Stream.readLength {f : Format} (hs : Stream s L (f.head n ++ q)) (hn : n < 2 ^ f.bits) :
    ∃ s', f.readLength s = .ok (some n, s') ∧ Stream s' L q ∧ Reads s s' := by
  cases f with
  | f16 =>
    have hs : Stream s L (toBE 2 n ++ q) := hs
    have hv : (UInt16.ofNat n).toNat = n := by
      rw [UInt16.toNat_ofNat', Nat.mod_eq_of_lt (show n < 2 ^ 16 from hn)]
    obtain ⟨s', hrun, hs', hreads⟩ := hs.readXX UInt16.ofNat (length_toBE 2 n) (by decide)
    rw [ofBE_toBE hn] at hrun
    refine ⟨s', ?_, hs', hreads⟩
    simp only [Format.readLength, readFuint16, hrun, Except.map, Option.map_some, hv]
  | f32 =>
    have hs : Stream s L (toBE 4 n ++ q) := hs
    have hv : (UInt32.ofNat n).toNat = n := by
      rw [UInt32.toNat_ofNat', Nat.mod_eq_of_lt (show n < 2 ^ 32 from hn)]
    obtain ⟨s', hrun, hs', hreads⟩ := hs.readXX UInt32.ofNat (length_toBE 4 n) (by decide)
    rw [ofBE_toBE hn] at hrun
    refine ⟨s', ?_, hs', hreads⟩
    simp only [Format.readLength, readFuint32, hrun, Except.map, Option.map_some, hv]
  | f64 =>
    have hs : Stream s L (toBE 8 n ++ q) := hs
    have hv : (UInt64.ofNat n).toNat = n := by
      rw [UInt64.toNat_ofNat', Nat.mod_eq_of_lt (show n < 2 ^ 64 from hn)]
    obtain ⟨s', hrun, hs', hreads⟩ := hs.readXX UInt64.ofNat (length_toBE 8 n) (by decide)
    rw [ofBE_toBE hn] at hrun
    refine ⟨s', ?_, hs', hreads⟩
    simp only [Format.readLength, readFuint64, hrun, Except.map, Option.map_some, hv]
  | vint =>
    have hv : (UInt64.ofNat n).toNat = n := by
      rw [UInt64.toNat_ofNat', Nat.mod_eq_of_lt (show n < 2 ^ 64 from hn)]
    have hs : Stream s L (groups (n % 2 ^ 64) ++ q) := hs
    rw [← UInt64.toNat_ofNat'] at hs
    obtain ⟨s', hrun, hs', hreads⟩ := hs.readGroups64 (UInt64.ofNat n)
    refine ⟨s', ?_, hs', hreads⟩
    simp only [Format.readLength, hrun, Except.map, Option.map_some, hv]

/-- **Reading the bytes.** A string that is there, unless the cursor is null and nothing is to be
    read. -/
theorem Stream.readString (hs : Stream s L (buf ++ q)) (hmax : buf.length ≤ max_size)
    (hcur : buf ≠ [] ∨ s.m_readPos.pos < s.m_capacity) :
    ∃ s', s.readString max_size (some buf.length) = .ok ⟨.value buf, s', buf.length⟩ ∧
      Stream s' L q ∧ Reads s s' := by
  obtain ⟨s', hrun, hs', -, hw, -, hcap⟩ := hs.read (n := buf.length) (by simp)
    (hcur.imp_left fun h => mt List.length_eq_zero_iff.mp h)
  rw [List.take_left] at hrun
  rw [List.drop_left] at hs'
  refine ⟨s', ?_, hs', hw, hcap⟩
  simp only [ByteArray.readString, if_neg (not_lt.mpr hmax), hrun, bind, Except.bind]

/-- Reading no bytes behind the last block. -/
theorem Stream.readString_null (hs : Stream s L q) (hfull : s.m_readPos.pos = s.m_capacity) :
    s.readString max_size (some 0) = .error .null := by
  simp only [ByteArray.readString, if_neg (Nat.not_lt_zero max_size), hs.toRep.read_null hfull,
    bind, Except.bind]

end

/-! ### Strings that come back -/

/-- **A string comes back.** If the writer returns, the reader takes the string and leaves `rest`
    behind it, and the length of the string has been written as it is. -/
def Safe (max_size : Nat) (s : ByteArray) (f : Format) (str rest : List UInt8) : Prop :=
  ∀ s₁, f.write s str = .ok s₁ → str.length < 2 ^ f.bits ∧
    ∃ s₂ r, s₁.write rest = .ok s₂ ∧ f.read max_size s₂ = .ok r ∧ r.result = .value str ∧
      r.array.toString = .ok (some rest)

/-- **A long string.** The length 65536 is written as 0. -/
theorem stringF16_not_safe : ¬ ∀ (B : Nat) (s : ByteArray) (b : List UInt8),
    (history B).Reachable (s, b) → s.getReadSize = 0 →
      ∀ (max_size : Nat) (f : Format) (str rest : List UInt8), str.length ≤ max_size →
        (f.head str.length).length + str.length + rest.length ≤ s.getCapacity →
          Safe max_size s f str rest := by
  intro h
  obtain ⟨str, hlen⟩ : ∃ str : List UInt8, str.length = 65536 :=
    ⟨List.replicate 65536 0, List.length_replicate⟩
  have hhead : (Format.f16.head 65536).length = 2 := length_toBE 2 65536
  have hcap : (new 65540).getCapacity = 65540 := rfl
  obtain ⟨s₁, hrun₁, hs₁, hcap₁, -⟩ :=
    (stream_new (B := 65540) (by decide)).write_fits (Format.f16.head 65536) (by omega)
  obtain ⟨s₂, hrun₂, -⟩ := hs₁.write_fits str (by omega)
  have hwrite : Format.f16.write (new 65540) str = .ok s₂ := by
    simp only [Format.write_eq, hlen, hrun₁, bind, Except.bind, hrun₂]
  have hsafe := h 65540 (new 65540) [] (.init ⟨rfl, by decide, by decide⟩) rfl 65536 .f16 _ []
    hlen.le (by rw [hlen, hhead, hcap]; decide) s₂ hwrite
  rw [hlen] at hsafe
  exact absurd hsafe.1 (by decide)

/-- **The strings that come back.** In an empty `ByteArray` with room for all the data a string
    comes back exactly when its length can be represented and, if it is empty and nothing follows
    it, its length has not filled the last block. -/
theorem safe_iff {B : Nat} {s : ByteArray} {b : List UInt8} (h : (history B).Reachable (s, b))
    (hempty : s.getReadSize = 0) {max_size : Nat} (f : Format) (str rest : List UInt8)
    (hmax : str.length ≤ max_size)
    (hroom : (f.head str.length).length + str.length + rest.length ≤ s.getCapacity) :
    Safe max_size s f str rest ↔
      str.length < 2 ^ f.bits ∧
        (str = [] → rest = [] → (f.head 0).length < s.getCapacity) := by
  obtain ⟨⟨L, hw⟩, -⟩ := reachable_written h
  have hs := hw.stream_nil hempty
  obtain ⟨s₁, hrun₁, hs₁, hcap₁, -, hcap₁', -⟩ :=
    hs.write_fits (f.head str.length) (by omega)
  obtain ⟨s₂, hrun₂, hs₂, hcap₂, -, hcap₂', -⟩ := hs₁.write_fits str (by omega)
  obtain ⟨s₃, hrun₃, hs₃, hcap₃, -, hcap₃', -⟩ := hs₂.write_fits rest (by omega)
  have hwrite : f.write s str = .ok s₂ := by
    simp only [f.write_eq, hrun₁, bind, Except.bind, hrun₂]
  rw [List.nil_append, List.append_assoc] at hs₃
  constructor
  · intro hsafe
    obtain ⟨hlen, s₃', r, hrun₃', hread, -⟩ := hsafe s₂ hwrite
    refine ⟨hlen, ?_⟩
    rintro rfl rfl
    by_contra hfull
    -- behind the length the cursor is null, and no bytes are to be read
    obtain rfl : s₃ = s₃' := Except.ok.inj (hrun₃.symm.trans hrun₃')
    obtain ⟨s₄, hrun₄, hs₄, hw₄, hcap₄⟩ := hs₃.readLength hlen
    have hlength := hs₄.length
    have hwrite₃ := hs₃.write_le
    unfold getCapacity at *
    simp only [List.append_nil, List.length_nil] at *
    have hend : s₄.m_readPos.pos = s₄.m_capacity := by
      rw [hcap₄]
      rw [hw₄] at hlength
      omega
    simp only [f.read_eq, hrun₄, bind, Except.bind, hs₄.readString_null hend,
      reduceCtorEq] at hread
  · rintro ⟨hlen, hfree⟩ s₂' hwrite'
    obtain rfl : s₂ = s₂' := Except.ok.inj (hwrite.symm.trans hwrite')
    obtain ⟨s₄, hrun₄, hs₄, hw₄, hcap₄⟩ := hs₃.readLength hlen
    have hlength := hs₄.length
    have hwrite₄ := hs₄.write_le
    have hcur : str ≠ [] ∨ s₄.m_readPos.pos < s₄.m_capacity := by
      by_cases hstr : str = []
      · right
        by_cases hrest : rest = []
        · have hfree := hfree hstr hrest
          rw [hcap₄, hcap₃', hcap₂', hcap₁']
          rw [hw₄] at hlength
          unfold getCapacity at *
          simp only [hstr, hrest, List.length_nil, List.append_nil] at *
          omega
        · have hpos := List.length_pos_of_ne_nil hrest
          rw [List.length_append] at hlength
          omega
      · exact .inl hstr
    obtain ⟨s₅, hrun₅, hs₅, -⟩ := hs₄.readString hmax hcur
    refine ⟨hlen, s₃, ⟨.value str, s₅, str.length⟩, hrun₃, ?_, rfl, hs₅.toString⟩
    simp only [f.read_eq, hrun₄, bind, Except.bind, hrun₅]

/-- Three bytes behind their length in one group, with another byte behind them. -/
theorem safe_iff_vint : Safe 3 (new 16) .vint [65, 66, 67] [7] :=
  (safe_iff (B := 16) (.init ⟨rfl, by decide, by decide⟩) rfl .vint [65, 66, 67] [7] (by decide)
    (by rw [Format.head, groups_of_lt (by decide)]; decide)).mpr ⟨by decide, by simp⟩

end LimWebserver.ByteArray
