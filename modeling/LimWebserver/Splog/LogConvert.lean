import LimWebserver.Splog.LogStream

namespace LimWebserver.LogConvert

open Http LogStream

/-!
# Splog — `convert`, in the buffer of its caller

* `IntType`, `Value` — the integer types that a `LogStream` takes; `promote` — what `<<` makes of a
  `short`;
* `store`, `convertLoop`, `convert` — the function; none where a byte outside the buffer or an entry
  outside the table is touched;
* `Canonical` — the decimal text of a number, without zeros in front;
* `convert_eq` — what is left in the buffer; `convert_canonical` — all values of all types.
-/

/-! ### Integer types -/

inductive IntType
  | short
  | unsigned_short
  | int
  | unsigned_int
  | long
  | unsigned_long
  | long_long
  | unsigned_long_long
  deriving DecidableEq, Repr

namespace IntType

def bits : IntType → Nat
  | short | unsigned_short => 16
  | int | unsigned_int => 32
  | long | unsigned_long | long_long | unsigned_long_long => 64

def signed : IntType → Bool
  | short | int | long | long_long => true
  | unsigned_short | unsigned_int | unsigned_long | unsigned_long_long => false

/-- `std::numeric_limits<T>::min()` -/
def min (T : IntType) : Int := if T.signed then -2 ^ (T.bits - 1) else 0

/-- `std::numeric_limits<T>::max()` -/
def max (T : IntType) : Int := if T.signed then 2 ^ (T.bits - 1) - 1 else 2 ^ T.bits - 1

theorem min_nonpos (T : IntType) : T.min ≤ 0 := by cases T <;> decide

theorem max_nonneg (T : IntType) : 0 ≤ T.max := by cases T <;> decide

/-- The type that `operator<<` passes on. -/
def promoted : IntType → IntType
  | short => int
  | unsigned_short => unsigned_int
  | T => T

end IntType

/-- A value of an integer type. -/
structure Value (T : IntType) where
  val : Int
  min_le : T.min ≤ val
  le_max : val ≤ T.max

namespace Value

variable {T : IntType}

theorem ext {v w : Value T} (h : v.val = w.val) : v = w := by
  cases v
  cases w
  congr

/-- The quotient lies between the number and zero. -/
theorem tdiv_between (v : Int) :
    (0 ≤ v.tdiv 10 ∨ v ≤ v.tdiv 10) ∧ (v.tdiv 10 ≤ 0 ∨ v.tdiv 10 ≤ v) := by
  rcases Int.le_total 0 v with h | h
  · rw [Int.tdiv_eq_ediv_of_nonneg h]
    omega
  · have hneg : v.tdiv 10 = -((-v).tdiv 10) := by rw [Int.neg_tdiv, Int.neg_neg]
    rw [hneg, Int.tdiv_eq_ediv_of_nonneg (by omega)]
    omega

/-- `i / 10`, which is a value of the type again. -/
def div10 (i : Value T) : Value T where
  val := i.val.tdiv 10
  min_le := (tdiv_between i.val).1.elim (T.min_nonpos.trans ·) (i.min_le.trans ·)
  le_max := (tdiv_between i.val).2.elim (·.trans T.max_nonneg) (·.trans i.le_max)

/-- `static_cast<int>(v)` of a `short`, `static_cast<unsigned int>(v)` of an `unsigned short`. -/
def promote (v : Value T) : Value T.promoted where
  val := v.val
  min_le := by
    have h := v.min_le
    cases T <;> simp [IntType.promoted, IntType.min, IntType.signed, IntType.bits] at h ⊢ <;> omega
  le_max := by
    have h := v.le_max
    cases T <;> simp [IntType.promoted, IntType.max, IntType.signed, IntType.bits] at h ⊢ <;> omega

/-- All values are among those of `long long` and `unsigned long long`. -/
theorem bounds (v : Value T) : -2 ^ 63 ≤ v.val ∧ v.val < 2 ^ 64 := by
  have hmin := v.min_le
  have hmax := v.le_max
  cases T <;> simp [IntType.min, IntType.max, IntType.signed, IntType.bits] at hmin hmax ⊢ <;> omega

end Value

/-! ### The function -/

/-- `*p = c`; none outside the buffer. -/
def store (buf : Bytes) (p : Nat) (c : UInt8) : Option Bytes :=
  if p < buf.length then some (buf.set p c) else none

variable {T : IntType}

/-- The loop: the buffer, and where it is written next. -/
def convertLoop (buf : Bytes) (p : Nat) (i : Value T) : Option (Bytes × Nat) :=
  (digit (i.val.tmod 10)).bind fun c =>
    (store buf p c).bind fun buf =>
      if _h : i.div10.val = 0 then some (buf, p + 1) else convertLoop buf (p + 1) i.div10
termination_by i.val.natAbs
decreasing_by
  show (i.val.tdiv 10).natAbs < i.val.natAbs
  rw [Int.natAbs_tdiv]
  refine Nat.div_lt_self (Int.natAbs_pos.mpr fun h0 => _h ?_) (by decide)
  show i.val.tdiv 10 = 0
  rw [h0]
  rfl

/-- `convert(buf, value)`: the buffer, and the length of the text in it. -/
def convert (buf : Bytes) (value : Value T) : Option (Bytes × Nat) := do
  let (buf, p) ← convertLoop buf 0 value
  let (buf, p) ← if value.val < 0 then (store buf p 45).map fun buf => (buf, p + 1)
    else some (buf, p)
  let buf ← store buf p 0
  -- `std::reverse(buf, p)`
  return ((buf.take p).reverse ++ buf.drop p, p)

/-- The text that has been written. -/
def written (r : Bytes × Nat) : Bytes := r.1.take r.2

/-- **The canonical decimal text**: a `-` or nothing, and digits of which the first is a zero only
    if there is no other. -/
def Canonical (v : Int) (text : Bytes) : Prop :=
  ∃ row, text = (if v < 0 then [45] else []) ++ row ∧ number row = some v.natAbs ∧
    (row.head? = some 48 → row = [48])

/-! ### What is left in the buffer -/

theorem store_append {front back : Bytes} (b c : UInt8) :
    store (front ++ b :: back) front.length c = some (front ++ [c] ++ back) := by
  rw [store, if_pos (by simp), List.set_append_right _ _ (Nat.le_refl _), Nat.sub_self,
    List.set_cons_zero, List.append_assoc, List.singleton_append]

/-- The digits are stored from the last one on. -/
theorem convertLoop_eq (front back : Bytes) (i : Value T)
    (h : (printed i.val.natAbs).length ≤ back.length) :
    convertLoop (front ++ back) front.length i =
      some (front ++ (printed i.val.natAbs).reverse ++ back.drop (printed i.val.natAbs).length,
        front.length + (printed i.val.natAbs).length) := by
  have hdigit : (i.val.tmod 10).natAbs = i.val.natAbs % 10 := Int.natAbs_tmod i.val 10
  have hrest : i.div10.val.natAbs = i.val.natAbs / 10 := Int.natAbs_tdiv i.val 10
  have hbound := Nat.mod_lt i.val.natAbs (by decide : 10 > 0)
  have hpos := List.length_pos_iff.mpr (printed_ne_nil i.val.natAbs)
  obtain ⟨b, back, rfl⟩ := List.exists_cons_of_length_pos (Nat.lt_of_lt_of_le hpos h)
  rw [convertLoop, digit_eq (by omega) (by omega), Option.bind_some, hdigit, store_append,
    Option.bind_some]
  by_cases h0 : i.div10.val = 0
  · have hone : printed i.val.natAbs = [(48 + i.val.natAbs % 10).toUInt8] := by
      rw [printed_eq, if_pos (by omega), List.nil_append]
    rw [dif_pos h0, hone]
    rfl
  · have hmore : printed i.val.natAbs =
        printed i.div10.val.natAbs ++ [(48 + i.val.natAbs % 10).toUInt8] := by
      rw [hrest, printed_eq, if_neg (by omega)]
    rw [hmore, List.length_append, List.length_singleton, List.length_cons] at h
    have ih := convertLoop_eq (front ++ [(48 + i.val.natAbs % 10).toUInt8]) back i.div10 (by omega)
    rw [List.length_append, List.length_singleton] at ih
    rw [dif_neg h0, ih, hmore, List.reverse_append, List.length_append, List.length_singleton,
      List.drop_succ_cons, Nat.add_assoc front.length, Nat.add_comm 1]
    simp
termination_by i.val.natAbs
decreasing_by
  omega

/-- The zero behind what is stored, which is turned round. -/
theorem store_zero (front back : Bytes) (b : UInt8) :
    ((store (front ++ b :: back) front.length 0).bind fun buf =>
      some ((buf.take front.length).reverse ++ buf.drop front.length, front.length)) =
        some (front.reverse ++ 0 :: back, front.length) := by
  rw [store_append, Option.bind_some, List.append_assoc, List.take_left, List.drop_left,
    List.singleton_append]

/-- What is behind the text and its zero keeps its bytes. -/
theorem convert_eq (buf : Bytes) (v : Value T) (h : (decimal v.val).length < buf.length) :
    convert buf v = some
      (decimal v.val ++ 0 :: buf.drop ((decimal v.val).length + 1), (decimal v.val).length) := by
  obtain ⟨row, hprinted⟩ : ∃ row : Bytes, printed v.val.natAbs = row.reverse :=
    ⟨_, (List.reverse_reverse _).symm⟩
  have hloop := convertLoop_eq [] buf v
  rw [hprinted, List.length_reverse, List.reverse_reverse, List.nil_append, List.nil_append,
    List.length_nil, Nat.zero_add] at hloop
  have hstored : row.length < buf.length := by
    refine Nat.lt_of_le_of_lt ?_ h
    rw [decimal, hprinted]
    split <;> simp
  rw [List.drop_eq_getElem_cons hstored] at hloop
  rw [convert, hloop (Nat.le_of_lt hstored)]
  simp only [Option.bind_eq_bind, Option.bind_some, Option.pure_def]
  rw [decimal, hprinted] at h ⊢
  split_ifs with hneg
  · rw [if_pos hneg, List.length_cons, List.length_reverse] at h
    have hzero := store_zero (row ++ [45]) (buf.drop (row.length + 2)) buf[row.length + 1]
    rw [List.length_append, List.length_singleton] at hzero
    rw [store_append, Option.map_some, Option.bind_some, List.drop_eq_getElem_cons h, hzero]
    simp
  · rw [store_zero, List.length_reverse]

/-! ### The text -/

/-- No zero is in front of a printed number. -/
theorem head_printed {n : Nat} (h : (printed n).head? = some 48) : printed n = [48] := by
  induction n using Nat.strongRecOn with
  | ind n ih =>
    rw [printed_eq] at h ⊢
    split_ifs at h ⊢ with hn
    · rw [List.nil_append] at h ⊢
      rw [Option.some.inj h]
    · rw [List.head?_append_of_ne_nil _ (printed_ne_nil _)] at h
      have hzero : n / 10 = 0 := by
        have hread := number_printed (n / 10)
        rw [ih (n / 10) (Nat.div_lt_self (by omega) (by decide)) h] at hread
        exact (Option.some.inj hread).symm
      omega

theorem canonical_decimal (v : Int) : Canonical v (decimal v) := by
  refine ⟨printed v.natAbs, ?_, number_printed _, head_printed⟩
  rw [decimal]
  split <;> rfl

/-- Only a negative number has a sign. -/
theorem sign_mem_decimal (v : Int) : 45 ∈ decimal v ↔ v < 0 := by
  have hdigits : 45 ∉ printed v.natAbs := fun h =>
    absurd (digit_of_mem_printed h).1 (by decide)
  rw [decimal]
  split
  · next h => exact iff_of_true List.mem_cons_self h
  · next h => exact iff_of_false hdigits h

theorem decimal_injective : Function.Injective decimal := by
  intro v w h
  have hsign : v < 0 ↔ w < 0 := by rw [← sign_mem_decimal v, h, sign_mem_decimal]
  have habs : v.natAbs = w.natAbs := by
    rw [decimal, decimal] at h
    split_ifs at h with hv hw hw
    · exact printed_injective (List.cons.inj h).2
    · exact absurd (hsign.mp hv) hw
    · exact absurd (hsign.mpr hw) hv
    · exact printed_injective h
  omega

/-- `convert` puts the text into the buffer that the other model of it computes. -/
theorem written_convert {buf : Bytes} {v : Value T} (h : (decimal v.val).length < buf.length) :
    (convert buf v).map written = LogStream.convert v.val := by
  rw [convert_eq buf v h, LogStream.convert_eq, Option.map_some, written, List.take_left]

/-- **Every value has its text.** It stands in the buffer with a zero behind it, and the rest of the
    buffer is as before; no other value of the type has this text. -/
theorem convert_canonical (v : Value T) (buf : Bytes) (h : 20 < buf.length) :
    ∃ text, Canonical v.val text ∧ text.length ≤ 20 ∧
      convert buf v = some (text ++ 0 :: buf.drop (text.length + 1), text.length) ∧
      convert buf v.promote = convert buf v ∧
      ∀ w : Value T, (convert buf w).map written = (convert buf v).map written → w = v := by
  have hshort : ∀ w : Value T, (decimal w.val).length < buf.length := fun w =>
    Nat.lt_of_le_of_lt (length_decimal_le w.bounds.1 w.bounds.2) h
  refine ⟨decimal v.val, canonical_decimal v.val, length_decimal_le v.bounds.1 v.bounds.2,
    convert_eq buf v (hshort v), ?_, fun w hw => ?_⟩
  · rw [convert_eq buf v (hshort v)]
    exact convert_eq buf v.promote (hshort v)
  · rw [written_convert (hshort w), written_convert (hshort v), LogStream.convert_eq,
      LogStream.convert_eq] at hw
    exact Value.ext (decimal_injective (Option.some.inj hw))

/-- The least `long long` in the buffer of a `LogStream`. -/
theorem convert_canonical_min : ∃ text,
    convert (T := .long_long) (List.replicate kMaxNumericSize 0) ⟨-2 ^ 63, by decide, by decide⟩ =
      some (text ++ 0 :: List.replicate (kMaxNumericSize - (text.length + 1)) 0, text.length) := by
  obtain ⟨text, -, -, htext, -, -⟩ := convert_canonical (T := .long_long)
    ⟨-2 ^ 63, by decide, by decide⟩ (List.replicate kMaxNumericSize 0)
    (by rw [List.length_replicate]; decide)
  exact ⟨text, by rw [htext, List.drop_replicate]⟩

end LimWebserver.LogConvert
