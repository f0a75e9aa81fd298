import LimWebserver.Net.ByteArrayString

namespace LimWebserver.ByteArray

open LimWebserver.Lib.Bytes LimWebserver.Lib.Varint

/-!
# Net — typed reads of truncated and malformed bytes

* `TypedRead`, `Value` — the readers, and what they return;
* `Encodes` — the bytes that are a complete encoding of a value;
* `Whole` — a reader takes one encoding, or throws `std::out_of_range` and takes nothing;
  `readUint32_not_whole` — it does not when a number is cut off;
* `number`, `Format.front` — what the unread bytes begin with;
* `Complete`, `whole_iff_complete` — for which bytes a reader is whole.
-/

/-! ### The readers -/

/-- A reader. -/
inductive TypedRead
  | fixed (k : Kind)
  | int32
  | uint32
  | int64
  | uint64
  | string (f : Format)
  deriving DecidableEq, Repr

/-- What a reader returns. -/
inductive Value
  | fixed (v : Fixed)
  | int32 (v : Int32)
  | uint32 (v : UInt32)
  | int64 (v : Int64)
  | uint64 (v : UInt64)
  | string (buff : List UInt8)
  deriving DecidableEq

/-- A reader that allocates nothing. -/
def Reading.ofOption {α : Type} (type : α → Value) (r : Option α × ByteArray) : Reading Value :=
  match r with
  | (none, s) => ⟨.outOfRange, s, 0⟩
  | (some v, s) => ⟨.value (type v), s, 0⟩

/-- A reader of strings. -/
def Reading.ofString (r : Reading (List UInt8)) : Reading Value :=
  match r.result with
  | .value buff => ⟨.value (.string buff), r.array, r.allocated⟩
  | .outOfRange => ⟨.outOfRange, r.array, r.allocated⟩
  | .noMemory => ⟨.noMemory, r.array, r.allocated⟩

@[simp] theorem Reading.ofString_array (r : Reading (List UInt8)) :
    (Reading.ofString r).array = r.array := by
  rcases r with ⟨_ | _ | _, _, _⟩ <;> rfl

theorem Reading.ofString_value {r : Reading (List UInt8)} {v : Value}
    (h : (Reading.ofString r).result = .value v) : ∃ buff, r.result = .value buff := by
  rcases r with ⟨buff | _ | _, _, _⟩
  · exact ⟨buff, rfl⟩
  · cases h
  · cases h

namespace TypedRead

/-- The call. -/
def run (max_size : Nat) (s : ByteArray) : TypedRead → Except Fault (Reading Value)
  | .fixed k => (k.read s).map (.ofOption .fixed)
  | .int32 => s.readInt32.map (.ofOption .int32)
  | .uint32 => s.readUint32.map (.ofOption .uint32)
  | .int64 => s.readInt64.map (.ofOption .int64)
  | .uint64 => s.readUint64.map (.ofOption .uint64)
  | .string f => (f.read max_size s).map .ofString

end TypedRead

/-! ### What a reader is to do -/

/-- `bytes` is a complete length. -/
def Format.IsLength : Format → List UInt8 → Nat → Prop
  | .vint, bytes, n => parse bytes = some (n, [])
  | f, bytes, n => n < 2 ^ f.bits ∧ bytes = f.head n

/-- The complete encodings of a value: of a number in groups of seven bits there may be leading
    groups of zeros, but no bit of the value is missing. -/
inductive Encodes : TypedRead → Value → List UInt8 → Prop
  | fixed (v : Fixed) : Encodes (.fixed v.kind) (.fixed v) v.wire
  | int32 (v : Int32) (bytes : List UInt8) :
      parse bytes = some ((encodeZigzag32 v).toNat, []) → Encodes .int32 (.int32 v) bytes
  | uint32 (v : UInt32) (bytes : List UInt8) :
      parse bytes = some (v.toNat, []) → Encodes .uint32 (.uint32 v) bytes
  | int64 (v : Int64) (bytes : List UInt8) :
      parse bytes = some ((encodeZigzag64 v).toNat, []) → Encodes .int64 (.int64 v) bytes
  | uint64 (v : UInt64) (bytes : List UInt8) :
      parse bytes = some (v.toNat, []) → Encodes .uint64 (.uint64 v) bytes
  | string (f : Format) (head str : List UInt8) :
      f.IsLength head str.length → Encodes (.string f) (.string str) (head ++ str)

/-- **A whole read.** The reader returns a value and has taken one complete encoding of it, or it
    throws `std::out_of_range` and the read position is where it was; and it has not allocated more
    than there was to read. -/
def Whole (max_size : Nat) (s : ByteArray) (t : TypedRead) : Prop :=
  ∃ q r, s.toString = .ok (some q) ∧ t.run max_size s = .ok r ∧ r.allocated ≤ s.getReadSize ∧
    ((∃ v bytes rest, r.result = .value v ∧ Encodes t v bytes ∧ q = bytes ++ rest ∧
        r.array.toString = .ok (some rest)) ∨
      (r.result = .outOfRange ∧ r.array.m_readPos = s.m_readPos))

/-! ### What the unread bytes begin with -/

/-- A number of no more than `rounds` groups and `bits` bits, and what is behind it. -/
def number (rounds bits : Nat) (q : List UInt8) : Option (Nat × List UInt8) :=
  (parse q).filter fun r => q.length - r.2.length ≤ rounds ∧ r.1 < 2 ^ bits

/-- A number of `k` bytes, and what is behind it. -/
def fixedFront (k : Nat) (q : List UInt8) : Option (Nat × List UInt8) :=
  if q.length < k then none else some (ofBE (q.take k), q.drop k)

/-- The length of a string, and what is behind it. -/
def Format.front : Format → List UInt8 → Option (Nat × List UInt8)
  | .f16 => fixedFront 2
  | .f32 => fixedFront 4
  | .f64 => fixedFront 8
  | .vint => number 10 64

/-- The condition on the unread bytes `q`: there are none, or they begin with a number that fits,
    and a length is followed by as many bytes, for which there is memory. A string without bytes is
    not at the very end of the last block. -/
def TypedRead.Complete (max_size : Nat) (s : ByteArray) (q : List UInt8) : TypedRead → Prop
  | .fixed _ => True
  | .int32 | .uint32 => q = [] ∨ (number 5 32 q).isSome
  | .int64 | .uint64 => q = [] ∨ (number 10 64 q).isSome
  | .string f =>
    match f.front q with
    | none => f = .vint → q = []
    | some (len, rest) =>
      len ≤ rest.length ∧ len ≤ max_size ∧ (rest = [] → s.getCapacity ≠ 0)

instance TypedRead.decidableComplete (max_size : Nat) (s : ByteArray) (q : List UInt8) :
    (t : TypedRead) → Decidable (t.Complete max_size s q)
  | .fixed _ => .isTrue trivial
  | .int32 => inferInstanceAs (Decidable (_ ∨ _))
  | .uint32 => inferInstanceAs (Decidable (_ ∨ _))
  | .int64 => inferInstanceAs (Decidable (_ ∨ _))
  | .uint64 => inferInstanceAs (Decidable (_ ∨ _))
  | .string f =>
    match h : f.front q with
    | none => decidable_of_iff (f = .vint → q = []) (by simp [Complete, h])
    | some (len, rest) =>
      decidable_of_iff (len ≤ rest.length ∧ len ≤ max_size ∧ (rest = [] → s.getCapacity ≠ 0))
        (by simp [Complete, h])

section
variable {s : ByteArray} {L : List Nat} {q rest : List UInt8} {rounds bits n max_size : Nat}

theorem number_eq_some (h : number rounds bits q = some (n, rest)) :
    parse q = some (n, rest) ∧ q.length - rest.length ≤ rounds ∧ n < 2 ^ bits := by
  obtain ⟨hparse, hfits⟩ := Option.filter_eq_some_iff.mp h
  exact ⟨hparse, by simpa using hfits⟩

theorem number_eq_none (h : number rounds bits q = none) (hparse : parse q = some (n, rest))
    (hrounds : q.length - rest.length ≤ rounds) : 2 ^ bits ≤ n := by
  rw [number, hparse, Option.filter_some] at h
  split at h
  · cases h
  · rename_i hfits
    by_contra hlt
    exact hfits (decide_eq_true ⟨hrounds, Nat.lt_of_not_le hlt⟩)

/-! ### Readers that are not whole -/

/-- A reader that has taken bytes which are no encoding of what it returns. -/
theorem Stream.not_whole {t : TypedRead} {r : Reading Value} {left : List UInt8}
    (hs : Stream s L q) (hrun : t.run max_size s = .ok r) (hleft : Stream r.array L left)
    (hw : r.array.m_writePos = s.m_writePos) (hshort : left.length < q.length)
    (hvalue : ∀ v, r.result = .value v → ∀ bytes, Encodes t v bytes → q ≠ bytes ++ left) :
    ¬ Whole max_size s t := by
  rintro ⟨q', r', hq, hrun', -, hend⟩
  obtain rfl : q = q' := Option.some.inj (Except.ok.inj (hs.toString.symm.trans hq))
  obtain rfl : r = r' := Except.ok.inj (hrun.symm.trans hrun')
  rcases hend with ⟨v, bytes, rest, hv, henc, hsplit, hrest⟩ | ⟨-, hpos⟩
  · obtain rfl : left = rest := Option.some.inj (Except.ok.inj (hleft.toString.symm.trans hrest))
    exact hvalue v hv bytes henc hsplit
  · -- the read position has moved
    have hlength := hs.length
    have hlength' := hleft.length
    rw [hpos, hw] at hlength'
    omega

/-- A number of which a part is missing, or that does not fit. -/
theorem Stream.unpack_none {w : Nat} (fuel : Nat) (hs : Stream s L q) (hq : q ≠ []) (hw : 0 < w)
    (hfuel : w ≤ 7 * fuel) (hrounds : w + 7 ≤ 7 * (rounds + 1))
    (h : number rounds w q = none) :
    ∃ r s' left, ByteArray.unpack fuel 0 0#w s = .ok (r, s') ∧ Stream s' L left ∧ Reads s s' ∧
      left.length < q.length ∧ ∀ v, r = some v → parse q ≠ some (v.toNat, left) := by
  have hpos := List.length_pos_of_ne_nil hq
  obtain ⟨r, s', left, hrun, hs', hreads, hle, hcases⟩ :=
    hs.unpack_any fuel 0 0#w (by omega)
  refine ⟨r, s', left, hrun, hs', hreads, ?_, ?_⟩
  · rcases hcases with ⟨-, rfl⟩ | ⟨v, n, -, hparse, -⟩ | ⟨v, -, hrounds, -⟩
    · exact hpos
    · exact parse_length hparse
    · omega
  · intro v hv hparse
    rcases hcases with ⟨rfl, -⟩ | ⟨-, n, -, hparse', htaken⟩ | ⟨-, -, -, hmore⟩
    · cases hv
    · have hge := number_eq_none h hparse (by omega)
      exact absurd hge (not_le.mpr v.isLt)
    · exact absurd (hmore _ _ hparse) (lt_irrefl _)

theorem Stream.readUint32_none (hs : Stream s L q) (hq : q ≠ []) (h : number 5 32 q = none) :
    ∃ r s' left, s.readUint32 = .ok (r, s') ∧ Stream s' L left ∧ Reads s s' ∧
      left.length < q.length ∧ ∀ v, r = some v → parse q ≠ some (v.toNat, left) := by
  obtain ⟨r, s', left, hrun, hs', hreads, hshort, hvalue⟩ :=
    hs.unpack_none 32 hq (by decide) (by decide) (by decide) h
  refine ⟨r.map UInt32.ofBitVec, s', left, ?_, hs', hreads, hshort, ?_⟩
  · simp only [ByteArray.readUint32, hrun, bind, Except.bind]
  · intro v hv
    obtain ⟨u, hu, rfl⟩ := Option.map_eq_some_iff.mp hv
    exact hvalue u hu

theorem Stream.readUint64_none (hs : Stream s L q) (hq : q ≠ []) (h : number 10 64 q = none) :
    ∃ r s' left, s.readUint64 = .ok (r, s') ∧ Stream s' L left ∧ Reads s s' ∧
      left.length < q.length ∧ ∀ v, r = some v → parse q ≠ some (v.toNat, left) := by
  obtain ⟨r, s', left, hrun, hs', hreads, hshort, hvalue⟩ :=
    hs.unpack_none 64 hq (by decide) (by decide) (by decide) h
  refine ⟨r.map UInt64.ofBitVec, s', left, ?_, hs', hreads, hshort, ?_⟩
  · simp only [ByteArray.readUint64, hrun, bind, Except.bind]
  · intro v hv
    obtain ⟨u, hu, rfl⟩ := Option.map_eq_some_iff.mp hv
    exact hvalue u hu

/-! ### Integers -/

/-- A reader of fixed width is whole, whatever there is to read. -/
theorem Stream.whole_fixed (hs : Stream s L q) (k : Kind) : Whole max_size s (.fixed k) := by
  by_cases hk : q.length < k.size
  · refine ⟨q, ⟨.outOfRange, s, 0⟩, hs.toString, ?_, Nat.zero_le _, .inr ⟨rfl, rfl⟩⟩
    simp [TypedRead.run, Kind.read_eq, hs.read_outOfRange hk, Except.map, Reading.ofOption]
  · have hlen : (q.take k.size).length = k.size := List.length_take_of_le (Nat.le_of_not_lt hk)
    obtain ⟨hkind, hwire⟩ := Kind.wire_decode k hlen
    obtain ⟨s', hrun, hs', -⟩ := hs.read (Nat.le_of_not_lt hk) (.inl k.size_pos)
    refine ⟨q, ⟨.value (.fixed (k.decode (q.take k.size))), s', 0⟩, hs.toString, ?_,
      Nat.zero_le _, .inl ⟨_, q.take k.size, q.drop k.size, rfl, ?_, ?_, hs'.toString⟩⟩
    · simp [TypedRead.run, Kind.read_eq, hrun, Except.map, Reading.ofOption]
    · have henc := Encodes.fixed (k.decode (q.take k.size))
      rwa [hkind, hwire] at henc
    · rw [List.take_append_drop]

/-- **Numbers in groups of seven bits.** What the readers of such numbers have in common. -/
theorem Stream.whole_number {α : Type} {t : TypedRead} {x : Except Fault (Option α × ByteArray)}
    {value : α → Value} {code : α → Nat} (hs : Stream s L q)
    (hrun : t.run max_size s = x.map (.ofOption value))
    (hcode : ∀ v bytes, Encodes t (value v) bytes ↔ parse bytes = some (code v, []))
    (hnil : q = [] → x = .ok (none, s))
    (hsome : ∀ n rest, number rounds bits q = some (n, rest) →
      ∃ v s', x = .ok (some v, s') ∧ code v = n ∧ Stream s' L rest)
    (hnone : q ≠ [] → number rounds bits q = none →
      ∃ r s' left, x = .ok (r, s') ∧ Stream s' L left ∧ Reads s s' ∧
        left.length < q.length ∧ ∀ v, r = some v → parse q ≠ some (code v, left)) :
    Whole max_size s t ↔ q = [] ∨ (number rounds bits q).isSome := by
  constructor
  · intro hwhole
    by_contra hbad
    obtain ⟨hq, hnumber⟩ := not_or.mp hbad
    obtain ⟨r, s', left, hx, hs', hreads, hshort, hvalue⟩ :=
      hnone hq (Option.not_isSome_iff_eq_none.mp hnumber)
    rw [hx] at hrun
    refine hs.not_whole hrun ?_ ?_ hshort (fun v hv bytes henc hsplit => ?_) hwhole
    · cases r <;> exact hs'
    · cases r <;> exact hreads.1
    · cases r with
      | none => cases hv
      | some u =>
        obtain rfl := Read.value.inj hv
        have hparse := parse_append ((hcode u bytes).mp henc) left
        rw [← hsplit] at hparse
        exact hvalue u rfl hparse
  · rintro (hq | hnumber)
    · refine ⟨q, ⟨.outOfRange, s, 0⟩, hs.toString, ?_, Nat.zero_le _, .inr ⟨rfl, rfl⟩⟩
      rw [hrun, hnil hq]
      rfl
    · obtain ⟨⟨n, rest⟩, hnumber⟩ := Option.isSome_iff_exists.mp hnumber
      obtain ⟨v, s', hx, rfl, hs'⟩ := hsome n rest hnumber
      obtain ⟨front, hsplit, hfront⟩ := parse_split (number_eq_some hnumber).1
      refine ⟨q, ⟨.value (value v), s', 0⟩, hs.toString, ?_, Nat.zero_le _,
        .inl ⟨_, front, rest, rfl, (hcode v front).mpr hfront, hsplit, hs'.toString⟩⟩
      rw [hrun, hx]
      rfl

/-- Without bytes nothing is taken. -/
theorem Stream.readUint32_nil (hs : Stream s L []) : s.readUint32 = .ok (none, s) := by
  have hrun : ByteArray.unpack 32 0 0#32 s = .ok (none, s) :=
    unpack_end 31 (by decide) hs.readFuint8_nil
  simp only [ByteArray.readUint32, hrun, bind, Except.bind, Option.map_none]

theorem Stream.readUint64_nil (hs : Stream s L []) : s.readUint64 = .ok (none, s) := by
  have hrun : ByteArray.unpack 64 0 0#64 s = .ok (none, s) :=
    unpack_end 63 (by decide) hs.readFuint8_nil
  simp only [ByteArray.readUint64, hrun, bind, Except.bind, Option.map_none]

theorem Stream.readUint32_number (hs : Stream s L q) (h : number 5 32 q = some (n, rest)) :
    ∃ s', s.readUint32 = .ok (some (UInt32.ofNat n), s') ∧ (UInt32.ofNat n).toNat = n ∧
      Stream s' L rest := by
  obtain ⟨hparse, hrounds, hn⟩ := number_eq_some h
  obtain ⟨s', hrun, hs', -⟩ := hs.readUint32 hparse hrounds hn
  exact ⟨s', hrun, by rw [UInt32.toNat_ofNat', Nat.mod_eq_of_lt hn], hs'⟩

theorem Stream.readUint64_number (hs : Stream s L q) (h : number 10 64 q = some (n, rest)) :
    ∃ s', s.readUint64 = .ok (some (UInt64.ofNat n), s') ∧ (UInt64.ofNat n).toNat = n ∧
      Stream s' L rest ∧ Reads s s' := by
  obtain ⟨hparse, hrounds, hn⟩ := number_eq_some h
  obtain ⟨s', hrun, hs', hreads⟩ := hs.readUint64 hparse hrounds hn
  exact ⟨s', hrun, by rw [UInt64.toNat_ofNat', Nat.mod_eq_of_lt hn], hs', hreads⟩

theorem Stream.whole_uint32 (hs : Stream s L q) :
    Whole max_size s .uint32 ↔ q = [] ∨ (number 5 32 q).isSome := by
  refine hs.whole_number rfl (fun v bytes => ⟨fun h => ?_, .uint32 v bytes⟩) (fun hq => ?_)
    (fun n rest h => ?_) hs.readUint32_none
  · cases h with
    | uint32 _ _ h => exact h
  · subst hq
    exact hs.readUint32_nil
  · obtain ⟨s', hrun, hn, hs'⟩ := hs.readUint32_number h
    exact ⟨_, s', hrun, hn, hs'⟩

theorem Stream.whole_uint64 (hs : Stream s L q) :
    Whole max_size s .uint64 ↔ q = [] ∨ (number 10 64 q).isSome := by
  refine hs.whole_number rfl (fun v bytes => ⟨fun h => ?_, .uint64 v bytes⟩) (fun hq => ?_)
    (fun n rest h => ?_) hs.readUint64_none
  · cases h with
    | uint64 _ _ h => exact h
  · subst hq
    exact hs.readUint64_nil
  · obtain ⟨s', hrun, hn, hs', -⟩ := hs.readUint64_number h
    exact ⟨_, s', hrun, hn, hs'⟩

theorem Stream.whole_int32 (hs : Stream s L q) :
    Whole max_size s .int32 ↔ q = [] ∨ (number 5 32 q).isSome := by
  refine hs.whole_number rfl (fun v bytes => ⟨fun h => ?_, .int32 v bytes⟩) (fun hq => ?_)
    (fun n rest h => ?_) (fun hq h => ?_)
  · cases h with
    | int32 _ _ h => exact h
  · subst hq
    simp only [readInt32, hs.readUint32_nil, bind, Except.bind, Option.map_none]
  · obtain ⟨s', hrun, hn, hs'⟩ := hs.readUint32_number h
    refine ⟨decodeZigzag32 (UInt32.ofNat n), s', ?_, ?_, hs'⟩
    · simp only [readInt32, hrun, bind, Except.bind, Option.map_some]
    · rw [encodeZigzag32_decodeZigzag32, hn]
  · obtain ⟨r, s', left, hrun, hs', hreads, hshort, hvalue⟩ := hs.readUint32_none hq h
    refine ⟨r.map decodeZigzag32, s', left, ?_, hs', hreads, hshort, ?_⟩
    · simp only [readInt32, hrun, bind, Except.bind]
    · intro v hv
      obtain ⟨u, hu, rfl⟩ := Option.map_eq_some_iff.mp hv
      rw [encodeZigzag32_decodeZigzag32]
      exact hvalue u hu

theorem Stream.whole_int64 (hs : Stream s L q) :
    Whole max_size s .int64 ↔ q = [] ∨ (number 10 64 q).isSome := by
  refine hs.whole_number rfl (fun v bytes => ⟨fun h => ?_, .int64 v bytes⟩) (fun hq => ?_)
    (fun n rest h => ?_) (fun hq h => ?_)
  · cases h with
    | int64 _ _ h => exact h
  · subst hq
    simp only [readInt64, hs.readUint64_nil, bind, Except.bind, Option.map_none]
  · obtain ⟨s', hrun, hn, hs', -⟩ := hs.readUint64_number h
    refine ⟨decodeZigzag64 (UInt64.ofNat n), s', ?_, ?_, hs'⟩
    · simp only [readInt64, hrun, bind, Except.bind, Option.map_some]
    · rw [encodeZigzag64_decodeZigzag64, hn]
  · obtain ⟨r, s', left, hrun, hs', hreads, hshort, hvalue⟩ := hs.readUint64_none hq h
    refine ⟨r.map decodeZigzag64, s', left, ?_, hs', hreads, hshort, ?_⟩
    · simp only [readInt64, hrun, bind, Except.bind]
    · intro v hv
      obtain ⟨u, hu, rfl⟩ := Option.map_eq_some_iff.mp hv
      rw [encodeZigzag64_decodeZigzag64]
      exact hvalue u hu

/-! ### Strings -/

theorem fixedFront_eq_some {k : Nat} (h : fixedFront k q = some (n, rest)) :
    n < 256 ^ k ∧ q = toBE k n ++ rest := by
  unfold fixedFront at h
  split at h
  · cases h
  · rename_i hk
    obtain ⟨rfl, rfl⟩ := Prod.mk.inj (Option.some.inj h)
    have hlen : (q.take k).length = k := List.length_take_of_le (Nat.le_of_not_lt hk)
    have hlt := ofBE_lt (q.take k)
    have hbytes := toBE_ofBE (q.take k)
    rw [hlen] at hlt hbytes
    exact ⟨hlt, by rw [hbytes, List.take_append_drop]⟩

theorem fixedFront_eq_none {k : Nat} (h : fixedFront k q = none) : q.length < k := by
  unfold fixedFront at h
  split at h
  · assumption
  · cases h

/-- The length that is read, and the bytes that have been taken for it. -/
theorem Stream.readLength_some {f : Format} (hs : Stream s L q) (h : f.front q = some (n, rest)) :
    ∃ s' front, f.readLength s = .ok (some n, s') ∧ Stream s' L rest ∧ Reads s s' ∧
      f.IsLength front n ∧ q = front ++ rest ∧ rest.length < q.length := by
  have hfixed : ∀ {k : Nat}, 0 < k → f.head n = toBE k n → 2 ^ f.bits = 256 ^ k →
      fixedFront k q = some (n, rest) → (n < 2 ^ f.bits → f.IsLength (f.head n) n) →
      ∃ s' front, f.readLength s = .ok (some n, s') ∧ Stream s' L rest ∧ Reads s s' ∧
        f.IsLength front n ∧ q = front ++ rest ∧ rest.length < q.length := by
    intro k hk hhead hbits hfront hlength
    obtain ⟨hn, hsplit⟩ := fixedFront_eq_some hfront
    rw [← hbits] at hn
    rw [← hhead] at hsplit
    obtain ⟨s', hrun, hs', hreads⟩ := Stream.readLength (hsplit ▸ hs) hn
    refine ⟨s', f.head n, hrun, hs', hreads, hlength hn, hsplit, ?_⟩
    rw [hsplit, List.length_append, hhead, length_toBE]
    omega
  cases f with
  | f16 => exact hfixed (by decide : 0 < 2) rfl rfl h fun hn => ⟨hn, rfl⟩
  | f32 => exact hfixed (by decide : 0 < 4) rfl rfl h fun hn => ⟨hn, rfl⟩
  | f64 => exact hfixed (by decide : 0 < 8) rfl rfl h fun hn => ⟨hn, rfl⟩
  | vint =>
    obtain ⟨s', hrun, hn, hs', hreads⟩ := hs.readUint64_number h
    obtain ⟨front, hsplit, hfront⟩ := parse_split (number_eq_some h).1
    refine ⟨s', front, ?_, hs', hreads, hfront, hsplit, parse_length (number_eq_some h).1⟩
    simp only [Format.readLength, hrun, Except.map, Option.map_some, hn]

/-- No length, and nothing is taken for it. -/
theorem Stream.readLength_none {f : Format} (hs : Stream s L q) (h : f.front q = none)
    (hq : f = .vint → q = []) : f.readLength s = .ok (none, s) := by
  cases f with
  | f16 =>
    simp only [Format.readLength, readFuint16, hs.readXX_outOfRange _ (fixedFront_eq_none h),
      Except.map, Option.map_none]
  | f32 =>
    simp only [Format.readLength, readFuint32, hs.readXX_outOfRange _ (fixedFront_eq_none h),
      Except.map, Option.map_none]
  | f64 =>
    simp only [Format.readLength, readFuint64, hs.readXX_outOfRange _ (fixedFront_eq_none h),
      Except.map, Option.map_none]
  | vint =>
    obtain rfl := hq rfl
    simp only [Format.readLength, hs.readUint64_nil, Except.map, Option.map_none]

/-- **Reading the bytes of a string.** It throws and leaves the array, it follows the null cursor
    behind the last block, or it takes the bytes. -/
theorem Stream.readString_any (hs : Stream s L q) (max_size n : Nat) :
    (∃ r, s.readString max_size (some n) = .ok r ∧ r.array = s ∧ (∀ buff, r.result ≠ .value buff) ∧
      (q.length < n ∨ max_size < n)) ∨
    (s.readString max_size (some n) = .error .null ∧ q = [] ∧ s.getCapacity = 0) ∨
    (∃ s', s.readString max_size (some n) = .ok ⟨.value (q.take n), s', n⟩ ∧
      Stream s' L (q.drop n) ∧ Reads s s' ∧ n ≤ q.length ∧ n ≤ max_size ∧
      (q = [] → s.getCapacity ≠ 0)) := by
  by_cases hmax : max_size < n
  · exact .inl ⟨⟨.noMemory, s, 0⟩, if_pos hmax, rfl, by simp, .inr hmax⟩
  by_cases hn : q.length < n
  · refine .inl ⟨⟨.outOfRange, s, n⟩, ?_, rfl, by simp, .inl hn⟩
    simp only [ByteArray.readString, if_neg hmax, hs.read_outOfRange hn, bind, Except.bind]
  right
  have hlength := hs.length
  have hle := hs.write_le
  unfold ByteArray.getCapacity
  by_cases hfull : q = [] ∧ s.m_capacity - s.m_writePos.pos = 0
  · obtain ⟨rfl, hfull⟩ := hfull
    rw [List.length_nil] at hlength hn
    obtain rfl : n = 0 := by omega
    exact .inl ⟨hs.readString_null (by omega), rfl, hfull⟩
  · have hbuf : (q.take n).length = n := List.length_take_of_le (Nat.le_of_not_lt hn)
    have hcur : s.m_readPos.pos < s.m_capacity := by
      by_cases hq : q = []
      · have hfree := (not_and.mp hfull) hq
        omega
      · have hpos := List.length_pos_of_ne_nil hq
        omega
    rw [← List.take_append_drop n q] at hs
    obtain ⟨s', hrun, hs', hreads⟩ := hs.readString (by omega : _ ≤ max_size) (.inr hcur)
    rw [hbuf] at hrun
    exact .inr ⟨s', hrun, hs', hreads, Nat.le_of_not_lt hn, Nat.le_of_not_lt hmax,
      not_and.mp hfull⟩

/-- A string of the length that has been read. -/
theorem Stream.whole_string_some {f : Format} (hs : Stream s L q)
    (h : f.front q = some (n, rest)) :
    Whole max_size s (.string f) ↔
      n ≤ rest.length ∧ n ≤ max_size ∧ (rest = [] → s.getCapacity ≠ 0) := by
  obtain ⟨s', front, hrun, hs', ⟨hw, hcap⟩, hfront, hsplit, hshort⟩ := hs.readLength_some h
  have hread : (TypedRead.string f).run max_size s =
      (s'.readString max_size (some n)).map .ofString := by
    simp only [TypedRead.run, Format.read_eq, hrun, bind, Except.bind]
  have hfree : s'.getCapacity = s.getCapacity := by rw [getCapacity, hw, hcap, getCapacity]
  rw [← hfree]
  rcases hs'.readString_any max_size n with ⟨r, hr, harray, hvalue, hbad⟩ | ⟨hr, hrest, hfull⟩ |
    ⟨s₂, hr, hs₂, -, hn, hmax, hcur⟩
  · -- an exception after the length has been taken
    rw [hr] at hread
    refine iff_of_false (hs.not_whole hread ?_ ?_ hshort fun v hv => ?_) (by omega)
    · rwa [Reading.ofString_array, harray]
    · rwa [Reading.ofString_array, harray]
    · obtain ⟨buff, hbuff⟩ := Reading.ofString_value hv
      exact absurd hbuff (hvalue buff)
  · -- there is no byte to read, and no block to read it from
    rw [hr] at hread
    refine iff_of_false ?_ ?_
    · rintro ⟨_, r, -, hrun', -⟩
      rw [hread] at hrun'
      cases hrun'
    · intro hcond
      exact hcond.2.2 hrest hfull
  · have hbuf : (rest.take n).length = n := List.length_take_of_le hn
    refine iff_of_true ?_ ⟨hn, hmax, hcur⟩
    refine ⟨q, ⟨.value (.string (rest.take n)), s₂, n⟩, hs.toString, ?_, ?_,
      .inl ⟨_, front ++ rest.take n, rest.drop n, rfl, .string f front _ ?_, ?_, hs₂.toString⟩⟩
    · rw [hread, hr]
      rfl
    · show n ≤ s.getReadSize
      rw [hs.getReadSize]
      omega
    · rwa [hbuf]
    · rw [List.append_assoc, List.take_append_drop, hsplit]

/-- A string whose length is cut off or does not fit. -/
theorem Stream.not_whole_vint (hs : Stream s L q) (hq : q ≠ []) (h : number 10 64 q = none) :
    ¬ Whole max_size s (.string .vint) := by
  obtain ⟨r, s', left, hrun, hs', hreads, hshort, hvalue⟩ := hs.readUint64_none hq h
  have hread : (TypedRead.string .vint).run max_size s =
      (s'.readString max_size (r.map UInt64.toNat)).map .ofString := by
    simp only [TypedRead.run, Format.read, readStringVint, hrun, bind, Except.bind]
  cases r with
  | none =>
    exact hs.not_whole hread hs' hreads.1 hshort fun v hv => by cases hv
  | some u =>
    rw [Option.map_some] at hread
    rcases hs'.readString_any max_size u.toNat with ⟨r, hr, harray, hvalue', -⟩ | ⟨hr, -⟩ |
      ⟨s₂, hr, hs₂, hreads₂, hn, -⟩
    · rw [hr] at hread
      refine hs.not_whole hread ?_ ?_ hshort fun v hv => ?_
      · rwa [Reading.ofString_array, harray]
      · rw [Reading.ofString_array, harray]
        exact hreads.1
      · obtain ⟨buff, hbuff⟩ := Reading.ofString_value hv
        exact absurd hbuff (hvalue' buff)
    · rw [hr] at hread
      rintro ⟨_, r, -, hrun', -⟩
      rw [hread] at hrun'
      cases hrun'
    · -- bytes that are a string behind another length
      rw [hr] at hread
      refine hs.not_whole hread hs₂ (hreads₂.1.trans hreads.1) ?_ fun v hv bytes henc hsplit => ?_
      · rw [List.length_drop]
        omega
      · obtain rfl := Read.value.inj hv
        cases henc with
        | string _ head _ hlength =>
          have hparse := parse_append hlength (left.take u.toNat ++ left.drop u.toNat)
          rw [← List.append_assoc, ← hsplit, List.take_append_drop, List.length_take_of_le hn]
            at hparse
          exact hvalue u rfl hparse

theorem Stream.whole_string_none {f : Format} (hs : Stream s L q) (h : f.front q = none) :
    Whole max_size s (.string f) ↔ (f = .vint → q = []) := by
  constructor
  · rintro hwhole rfl
    by_contra hq
    exact hs.not_whole_vint hq h hwhole
  · intro hq
    refine ⟨q, ⟨.outOfRange, s, 0⟩, hs.toString, ?_, Nat.zero_le _, .inr ⟨rfl, rfl⟩⟩
    simp only [TypedRead.run, Format.read_eq, hs.readLength_none h hq, bind, Except.bind,
      ByteArray.readString, Except.map, Reading.ofString]

end

/-! ### Truncated bytes -/

/-- **A number that is cut off.** The one byte of it that has arrived is gone when `readUint32`
    throws. -/
theorem readUint32_not_whole : ¬ ∀ (B : Nat) (s : ByteArray) (b : List UInt8),
    (history B).Reachable (s, b) → ∀ (max_size : Nat) (t : TypedRead), Whole max_size s t := by
  intro h
  obtain ⟨s, -, hreach, hs, -⟩ := reachable_write (B := 16) (by decide) (by decide)
    (show [0x80].length ≤ 16 by decide)
  have hwhole := hs.whole_uint32.mp (h 16 s _ hreach 0 .uint32)
  exact absurd hwhole (by decide)

/-- **The bytes for which the readers are whole.** Those of fixed width always are; the others are
    when the unread bytes begin with a complete encoding that fits, or when there are none. -/
theorem whole_iff_complete {B : Nat} {s : ByteArray} {b : List UInt8}
    (h : (history B).Reachable (s, b)) (max_size : Nat) (t : TypedRead) :
    Whole max_size s t ↔ t.Complete max_size s (b.drop s.m_readPos.pos) := by
  obtain ⟨⟨L, hw⟩, -⟩ := reachable_written h
  have hs := hw.stream
  cases t with
  | fixed k => exact iff_of_true (hs.whole_fixed k) trivial
  | int32 => exact hs.whole_int32
  | uint32 => exact hs.whole_uint32
  | int64 => exact hs.whole_int64
  | uint64 => exact hs.whole_uint64
  | string f =>
    cases hfront : f.front (b.drop s.m_readPos.pos) with
    | none =>
      rw [hs.whole_string_none hfront, TypedRead.Complete, hfront]
    | some r =>
      obtain ⟨n, rest⟩ := r
      rw [hs.whole_string_some hfront, TypedRead.Complete, hfront]

/-- Two bytes behind their length. -/
theorem whole_iff_complete_vint :
    ∃ s, (new 16).write [2, 65, 66] = .ok s ∧ Whole 2 s (.string .vint) := by
  obtain ⟨s, hwrite, hreach, -, hfree, hpos⟩ := reachable_write (B := 16) (by decide) (by decide)
    (show [2, 65, 66].length ≤ 16 by decide)
  refine ⟨s, hwrite, (whole_iff_complete hreach 2 (.string .vint)).mpr ?_⟩
  rw [hpos]
  exact ⟨by decide, by decide, by simp⟩

end LimWebserver.ByteArray
