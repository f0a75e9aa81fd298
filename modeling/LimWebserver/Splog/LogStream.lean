import LimWebserver.Lib.CString
import LimWebserver.Net.Http.Message
import Mathlib.Data.Int.Order.Basic
import Mathlib.Data.Nat.Log

namespace LimWebserver.LogStream

open Http Lib.CString

/-!
# Splog — `LogStream`: a line in a buffer of fixed size

* `convert` — the digits of a number, the last one first, and turned round; `convert_eq` — its
  decimal text;
* `FixedBuffer`, `append`, `add` — the buffer; none where something outside it is touched;
* `Item`, `insert`, `run` — the `<<` operators, and any number of insertions;
* `Overlong` — a string whose length, as an `int`, is less than it is;
* `insert_eq` — one insertion; `written_iff` — all of them.
-/

/-! ### Numbers -/

def digits : Bytes := chars "9876543210123456789"

/-- `zero[lsd]`, where `zero` points into the middle of `digits`. -/
def digit (lsd : Int) : Option UInt8 := if 0 ≤ 9 + lsd then digits[(9 + lsd).toNat]? else none

/-- The loop of `convert`: what it stores, where the first digit is the last one of the number. -/
def convertLoop (i : Int) : Option Bytes :=
  (digit (i.tmod 10)).bind fun c =>
    if _h : i.tdiv 10 = 0 then some [c] else (convertLoop (i.tdiv 10)).map (c :: ·)
termination_by i.natAbs
decreasing_by
  rw [Int.natAbs_tdiv]
  exact Nat.div_lt_self (Int.natAbs_pos.mpr fun h0 => _h (by rw [h0]; rfl)) (by decide)

/-- `convert(buf, value)`: the text in front of the zero; none if another entry of the table than
    the nineteen is read. -/
def convert (value : Int) : Option Bytes :=
  (convertLoop value).map fun stored => (if value < 0 then stored ++ [45] else stored).reverse

/-- The decimal text of a number. -/
def decimal (v : Int) : Bytes := if v < 0 then 45 :: printed v.natAbs else printed v.natAbs

theorem printed_eq (n : Nat) : printed n =
    (if n < 10 then [] else printed (n / 10)) ++ [(48 + n % 10).toUInt8] := by
  have hdigit : ∀ d < 10, (Nat.digitChar d).toNat.toUInt8 = (48 + d).toUInt8 := by decide
  rw [printed, Nat.toDigits_eq_if (by decide)]
  split
  · next h => simp [hdigit n h, Nat.mod_eq_of_lt h]
  · simp [hdigit (n % 10) (Nat.mod_lt n (by decide)), printed]

theorem digit_eq {lsd : Int} (hlow : -10 < lsd) (hhigh : lsd < 10) :
    digit lsd = some (48 + lsd.natAbs).toUInt8 := by
  have hall : ∀ k < 19, digit ((k : Nat) - 9 : Int) =
      some (48 + ((k : Nat) - 9 : Int).natAbs).toUInt8 := by decide
  have h := hall (lsd + 9).toNat (by omega)
  rwa [Int.toNat_of_nonneg (by omega), Int.add_sub_cancel] at h

theorem convertLoop_eq (i : Int) : convertLoop i = some (printed i.natAbs).reverse := by
  induction i using convertLoop.induct with
  | case1 i ih =>
    have hdigit : (i.tmod 10).natAbs = i.natAbs % 10 := Int.natAbs_tmod i 10
    have hrest : (i.tdiv 10).natAbs = i.natAbs / 10 := Int.natAbs_tdiv i 10
    have hbound := Nat.mod_lt i.natAbs (by decide : 10 > 0)
    rw [convertLoop, digit_eq (by omega) (by omega), Option.bind_some, hdigit, printed_eq]
    by_cases h : i.tdiv 10 = 0
    · rw [dif_pos h, if_pos (by omega)]
      rfl
    · rw [dif_neg h, ih h, if_neg (by omega), hrest]
      simp

theorem convert_eq (v : Int) : convert v = some (decimal v) := by
  rw [convert, convertLoop_eq, Option.map_some, decimal]
  split <;> simp

theorem length_decimal_le {v : Int} (hlow : -2 ^ 63 ≤ v) (hhigh : v < 2 ^ 64) :
    (decimal v).length ≤ 20 := by
  rw [decimal]
  split
  · have hlen := length_printed_le (n := v.natAbs) (k := 19) (by decide) (by omega)
    exact Nat.succ_le_succ hlen
  · exact length_printed_le (by decide) (by omega)

/-! ### The buffer -/

/-- `FixedBuffer<SIZE>`, with `m_cur` as a position in `m_data`. -/
structure FixedBuffer (SIZE : Nat) where
  m_data : Bytes
  m_cur : Nat
  length_m_data : m_data.length = SIZE
  m_cur_le : m_cur ≤ SIZE

namespace FixedBuffer

variable {SIZE : Nat} (b : FixedBuffer SIZE)

/-- A new buffer; what its bytes are does not matter. -/
def new (SIZE : Nat) : FixedBuffer SIZE :=
  { m_data := List.replicate SIZE 0
    m_cur := 0
    length_m_data := List.length_replicate
    m_cur_le := Nat.zero_le SIZE }

def avail : Nat := SIZE - b.m_cur

/-- `std::string(m_data, length())` -/
def toString : Bytes := b.m_data.take b.m_cur

/-- Storing bytes from `m_cur` on; none if they do not all belong to `m_data`. -/
def store (buf : Bytes) : Option (FixedBuffer SIZE) :=
  if h : b.m_cur + buf.length ≤ SIZE then
    some
      { b with
        m_data := b.m_data.take b.m_cur ++ buf ++ b.m_data.drop (b.m_cur + buf.length)
        length_m_data := by
          rw [List.length_append, List.length_append, List.length_take, List.length_drop,
            b.length_m_data]
          omega }
  else none

/-- `add(len)`; none if `m_cur` does not stay within the buffer. -/
def add (len : Nat) : Option (FixedBuffer SIZE) :=
  if h : b.m_cur + len ≤ SIZE then some { b with m_cur := b.m_cur + len, m_cur_le := h } else none

/-- `append(buf, len)`, which compares `avail()` with the length as an `int`. -/
def append (buf : Bytes) : Option (FixedBuffer SIZE) :=
  if (buf.length : Int).bmod (2 ^ 32) ≤ b.avail then
    (b.store buf).bind fun b => b.add buf.length
  else some b

end FixedBuffer

def kSmallBuffer : Nat := 4000

def kMaxNumericSize : Nat := 48

/-- `LogStream::Buffer` -/
abbrev Buffer := FixedBuffer kSmallBuffer

/-- A value of one of the integer types, from `long long` to `unsigned long long`. -/
abbrev Integer := { v : Int // -2 ^ 63 ≤ v ∧ v < 2 ^ 64 }

/-- What a `LogStream` holds. -/
abbrev Content := { text : Bytes // text.length ≤ kSmallBuffer }

/-- The operands of `<<`, with any type for the floating-point numbers. -/
inductive Item (Double : Type) where
  | bool (v : Bool)
  | char (v : UInt8)
  /-- a C string: what stands in memory, or none for a null pointer -/
  | cstring (str : Option Bytes)
  | string (v : Bytes)
  | stream (s : Content)
  | integer (v : Integer)
  | double (v : Double)

variable {Double : Type} (g : Double → Bytes)

/-- `formatInteger(v)` -/
def formatInteger (b : Buffer) (v : Int) : Option Buffer :=
  if kMaxNumericSize ≤ b.avail then
    (convert v).bind fun text => (b.store (c_str text)).bind fun b => b.add text.length
  else some b

/-- `operator<<(double)`, where `g` is what `"%.12g"` stands for. -/
def formatDouble (b : Buffer) (v : Double) : Option Buffer :=
  if kMaxNumericSize ≤ b.avail then
    (b.store (c_str ((g v).take (kMaxNumericSize - 1)))).bind fun b => b.add (g v).length
  else some b

/-- `operator<<` -/
def insert (b : Buffer) : Item Double → Option Buffer
  | .bool v => b.append (if v then chars "1" else chars "0")
  | .char v => b.append [v]
  | .cstring (some str) => b.append (cstr str)
  | .cstring none => b.append (chars "(null)")
  | .string v => b.append v
  | .stream s => b.append s
  | .integer v => formatInteger b v
  | .double v => formatDouble g b v

/-- Any number of insertions. -/
def run (items : List (Item Double)) : Option Buffer := items.foldlM (insert g) (FixedBuffer.new _)

/-! ### What is to be written -/

namespace Item

/-- The text of an operand. -/
def text : Item Double → Bytes
  | .bool v => if v then chars "1" else chars "0"
  | .char v => [v]
  | .cstring (some str) => cstr str
  | .cstring none => chars "(null)"
  | .string v => v
  | .stream s => s
  | .integer v => decimal v
  | .double v => g v

/-- The room that an operand needs. -/
def room : Item Double → Nat
  | .integer _ | .double _ => kMaxNumericSize
  | item => (item.text g).length

/-- Its length is more than the room, but is taken for less. -/
def Overlong (avail : Nat) : Item Double → Prop
  | .integer _ | .double _ => False
  | item => avail < (item.text g).length ∧ ((item.text g).length : Int).bmod (2 ^ 32) ≤ avail

end Item

/-- What there is after one more operand, whose text is added if there is room. -/
def accept (content : Bytes) (item : Item Double) : Bytes :=
  if item.room g ≤ kSmallBuffer - content.length then content ++ item.text g else content

/-- The texts of those operands for which there is room. -/
def expected (items : List (Item Double)) : Bytes := items.foldl (accept g) []

/-- **What a stream is to do**: after each insertion it holds the expected text, and nothing has
    been stored outside the buffer. -/
def Written (items : List (Item Double)) : Prop :=
  ∀ done, done <+: items → ∃ b, run g done = some b ∧ b.toString = expected g done

/-- No operand is taken for a short one. -/
def Measured (items : List (Item Double)) : Prop :=
  ∀ done item, done ++ [item] <+: items →
    ¬item.Overlong g (kSmallBuffer - (expected g done).length)

/-! ### One insertion -/

namespace FixedBuffer

variable {SIZE : Nat} {b : FixedBuffer SIZE} {buf : Bytes}

theorem length_toString (b : FixedBuffer SIZE) : b.toString.length = b.m_cur := by
  rw [toString, List.length_take, b.length_m_data, Nat.min_eq_left b.m_cur_le]

/-- Something is stored from `m_cur` on, and `m_cur` is moved behind the first part of it. -/
theorem store_add (tail : Bytes) (h : (buf ++ tail).length ≤ b.avail) :
    ∃ b', (b.store (buf ++ tail)).bind (fun b => b.add buf.length) = some b' ∧
      b'.toString = b.toString ++ buf := by
  have hcur := b.m_cur_le
  rw [avail, List.length_append] at h
  have hroom : b.m_cur + (buf ++ tail).length ≤ SIZE := by rw [List.length_append]; omega
  have hmove : b.m_cur + buf.length ≤ SIZE := by omega
  rw [store, dif_pos hroom, Option.bind_some, add, dif_pos hmove]
  refine ⟨_, rfl, ?_⟩
  have htake : (b.m_data.take b.m_cur).length = b.m_cur := length_toString b
  show List.take (b.m_cur + buf.length) (b.m_data.take b.m_cur ++ (buf ++ tail) ++
    b.m_data.drop (b.m_cur + (buf ++ tail).length)) = b.m_data.take b.m_cur ++ buf
  rw [List.append_assoc, List.append_assoc, ← List.append_assoc]
  refine List.take_left' ?_
  rw [List.length_append, htake]

/-- `append` where nothing is taken for less than it is. -/
theorem append_eq (h : ¬(b.avail < buf.length ∧ (buf.length : Int).bmod (2 ^ 32) ≤ b.avail))
    (hSIZE : SIZE < 2 ^ 31) : ∃ b', b.append buf = some b' ∧
      b'.toString = if buf.length ≤ b.avail then b.toString ++ buf else b.toString := by
  unfold append
  by_cases hfits : buf.length ≤ b.avail
  · have havail : b.avail ≤ SIZE := Nat.sub_le _ _
    have hmod : (buf.length : Int).bmod (2 ^ 32) = buf.length := by
      rw [Int.bmod_eq_of_le] <;> omega
    rw [if_pos hfits, if_pos (by omega)]
    have hstore := store_add [] (by simpa using hfits)
    rwa [List.append_nil] at hstore
  · rw [if_neg hfits, if_neg fun hle => h ⟨Nat.not_le.mp hfits, hle⟩]
    exact ⟨b, rfl, rfl⟩

/-- What is stored does not belong to the buffer. -/
theorem append_overlong (h : b.avail < buf.length ∧ (buf.length : Int).bmod (2 ^ 32) ≤ b.avail) :
    b.append buf = none := by
  have hcur := b.m_cur_le
  have hlong := h.1
  rw [avail] at hlong
  unfold append
  rw [if_pos h.2, store, dif_neg (by omega), Option.bind_none]

end FixedBuffer

variable {g} {b : Buffer} {item : Item Double}

/-- A text with the zero behind it is stored, where there is room for a number. -/
theorem store_number {text : Bytes} (h : text.length < kMaxNumericSize) : ∃ b',
    (if kMaxNumericSize ≤ b.avail then
      (b.store (c_str text)).bind fun b => b.add text.length else some b) = some b' ∧
      b'.toString = if kMaxNumericSize ≤ b.avail then b.toString ++ text else b.toString := by
  by_cases hroom : kMaxNumericSize ≤ b.avail
  · rw [if_pos hroom, if_pos hroom]
    refine FixedBuffer.store_add [0] ?_
    rw [List.length_append, List.length_singleton]
    omega
  · rw [if_neg hroom, if_neg hroom]
    exact ⟨b, rfl, rfl⟩

/-- **One insertion.** -/
theorem insert_eq (hg : ∀ v, (g v).length < kMaxNumericSize) (h : ¬item.Overlong g b.avail) :
    ∃ b', insert g b item = some b' ∧
      b'.toString = if item.room g ≤ b.avail then b.toString ++ item.text g else b.toString := by
  have hSIZE : kSmallBuffer < 2 ^ 31 := by decide
  cases item with
  | bool v => exact FixedBuffer.append_eq h hSIZE
  | char v => exact FixedBuffer.append_eq h hSIZE
  | cstring str =>
    cases str with
    | none => exact FixedBuffer.append_eq h hSIZE
    | some str => exact FixedBuffer.append_eq h hSIZE
  | string v => exact FixedBuffer.append_eq h hSIZE
  | stream s => exact FixedBuffer.append_eq h hSIZE
  | integer v =>
    have hlen := length_decimal_le v.2.1 v.2.2
    show ∃ b', formatInteger b v = some b' ∧ _
    simp only [formatInteger, convert_eq, Option.bind_some]
    exact store_number (Nat.lt_of_le_of_lt hlen (by decide))
  | double v =>
    have htake : (g v).take (kMaxNumericSize - 1) = g v :=
      List.take_of_length_le (Nat.le_pred_of_lt (hg v))
    show ∃ b', formatDouble g b v = some b' ∧ _
    rw [formatDouble, htake]
    exact store_number (hg v)

/-- An operand that is taken for a short one. -/
theorem insert_overlong (h : item.Overlong g b.avail) : insert g b item = none := by
  cases item with
  | bool v => exact FixedBuffer.append_overlong h
  | char v => exact FixedBuffer.append_overlong h
  | cstring str =>
    cases str with
    | none => exact FixedBuffer.append_overlong h
    | some str => exact FixedBuffer.append_overlong h
  | string v => exact FixedBuffer.append_overlong h
  | stream s => exact FixedBuffer.append_overlong h
  | integer v => exact absurd h id
  | double v => exact absurd h id

/-! ### Any number of insertions -/

theorem expected_concat (items : List (Item Double)) (item : Item Double) :
    expected g (items ++ [item]) = accept g (expected g items) item := by
  rw [expected, List.foldl_append]
  rfl

theorem run_concat (items : List (Item Double)) (item : Item Double) :
    run g (items ++ [item]) = (run g items).bind fun b => insert g b item := by
  rw [run, List.foldlM_append]
  exact congrArg _ (funext fun b => by simp)

theorem written_concat (items : List (Item Double)) (item : Item Double) :
    Written g (items ++ [item]) ↔ Written g items ∧
      ∃ b, run g (items ++ [item]) = some b ∧ b.toString = expected g (items ++ [item]) := by
  constructor
  · exact fun h => ⟨fun done hdone => h done (hdone.trans (List.prefix_append _ _)),
      h _ List.prefix_rfl⟩
  · rintro ⟨hitems, hlast⟩ done hdone
    rcases List.prefix_concat_iff.mp hdone with rfl | hdone
    · exact hlast
    · exact hitems done hdone

theorem measured_concat (items : List (Item Double)) (item : Item Double) :
    Measured g (items ++ [item]) ↔ Measured g items ∧
      ¬item.Overlong g (kSmallBuffer - (expected g items).length) := by
  constructor
  · exact fun h => ⟨fun done next hdone => h done next (hdone.trans (List.prefix_append _ _)),
      h _ _ List.prefix_rfl⟩
  · rintro ⟨hitems, hlast⟩ done next hdone
    rcases List.prefix_concat_iff.mp hdone with hall | hdone
    · obtain ⟨rfl, hnext⟩ := List.append_inj' hall rfl
      obtain rfl := (List.cons.inj hnext).1
      exact hlast
    · exact hitems done next hdone

/-- **The insertions that are carried out as they should be.** -/
theorem written_iff (hg : ∀ v, (g v).length < kMaxNumericSize) (items : List (Item Double)) :
    Written g items ↔ Measured g items := by
  induction items using List.reverseRecOn with
  | nil =>
    refine iff_of_true (fun done hdone => ?_) fun done item hdone => ?_
    · rw [List.prefix_nil.mp hdone]
      exact ⟨_, rfl, rfl⟩
    · exact absurd (List.prefix_nil.mp hdone) (by simp)
  | append_singleton items item ih =>
    rw [written_concat, measured_concat, ← ih]
    refine and_congr_right fun hitems => ?_
    obtain ⟨b, hrun, hb⟩ := hitems items List.prefix_rfl
    have havail : kSmallBuffer - (expected g items).length = b.avail := by
      rw [← hb, FixedBuffer.length_toString]
      rfl
    rw [run_concat, hrun, Option.bind_some, expected_concat, accept, havail, ← hb]
    constructor
    · rintro ⟨b', hinsert, -⟩ hlong
      rw [insert_overlong hlong] at hinsert
      cases hinsert
    · exact insert_eq hg

/-- Strings below two gigabytes are never taken for shorter ones. -/
theorem measured_of_length {items : List (Item Double)}
    (h : ∀ item ∈ items, (item.text g).length < 2 ^ 31) : Measured g items := by
  intro done item hdone hlong
  have hitem := h item (hdone.subset (by simp))
  have hmod : ((item.text g).length : Int).bmod (2 ^ 32) = (item.text g).length := by
    rw [Int.bmod_eq_of_le] <;> omega
  cases item with
  | integer v => exact hlong
  | double v => exact hlong
  | _ =>
    obtain ⟨hmore, hless⟩ := hlong
    rw [hmod] at hless
    omega

/-- A short line: "n=-7, 0.5". -/
theorem written_iff_line : Written (fun _ : Unit => chars "0.5")
    [.string (chars "n="), .integer ⟨-7, by decide⟩, .cstring (some (c_str (chars ", "))),
      .double ()] :=
  (written_iff (fun _ => by decide) _).mpr (measured_of_length (by decide))

/-- The first string may be one that is taken for a short one. -/
theorem not_written_string {v : Bytes} {n : Nat} (hv : v.length = n) (hmore : kSmallBuffer < n)
    (hless : (n : Int).bmod (2 ^ 32) ≤ kSmallBuffer) : ¬Written g [.string v] := by
  intro hw
  subst hv
  obtain ⟨b, hrun, -⟩ := hw [.string v] List.prefix_rfl
  have havail : (FixedBuffer.new kSmallBuffer).avail = kSmallBuffer := Nat.sub_zero _
  have hlong : (Item.string v : Item Double).Overlong g (FixedBuffer.new kSmallBuffer).avail := by
    rw [havail]
    exact ⟨hmore, hless⟩
  have hnew : run g ([] : List (Item Double)) = some (FixedBuffer.new kSmallBuffer) := rfl
  have hconcat := run_concat (g := g) [] (.string v)
  rw [List.nil_append, hrun, hnew, Option.bind_some, insert_overlong hlong] at hconcat
  cases hconcat

/-- A string of 2 GiB: its length is negative as an `int`. -/
theorem written_gibibytes : ¬∀ items : List (Item Unit), Written (fun _ => chars "0.5") items :=
  fun h => not_written_string (List.length_replicate (n := 2 ^ 31) (a := 97)) (by decide)
    (by decide) (h _)

end LimWebserver.LogStream
