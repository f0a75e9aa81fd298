import LimWebserver.Net.ByteArrayRep

namespace LimWebserver.ByteArray

/-!
# Net — `ByteArray` as a byte queue

What `write`, `read`, `clear` and `toString` are for: an unbounded FIFO queue of bytes.

* `Op`, `run` — sequences of calls on a new `ByteArray`, with what the caller observes;
* `Fifo` — the same calls on a queue;
* `Refines` — the two agree; `write_full_not_refines` — they do not for every sequence;
* `Fits` — the condition on the calls, in terms of the bytes written and read since the last
  `clear()`; `refines_iff_fits` — it is exact.
-/

/-- A call. -/
inductive Op
  | write (buf : List UInt8)
  | read (size : Nat)
  | clear
  | toString
  deriving DecidableEq, Repr

/-- What a call returns. -/
inductive Result
  | unit
  | bytes (buf : List UInt8)
  /-- `std::out_of_range` is thrown -/
  | outOfRange
  deriving DecidableEq, Repr

/-- The result of a call that yields bytes or throws. -/
def Result.ofOption : Option (List UInt8) → Result
  | some buf => .bytes buf
  | none => .outOfRange

/-- One call. -/
def step (s : ByteArray) : Op → Except Fault (Result × ByteArray)
  | .write buf => do
    let s' ← s.write buf
    .ok (.unit, s')
  | .read size => do
    let (buf, s') ← s.read size
    .ok (.ofOption buf, s')
  | .clear => do
    let s' ← s.clear
    .ok (.unit, s')
  | .toString => do
    let buf ← s.toString
    .ok (.ofOption buf, s)

/-- A sequence of calls: the result of each, and `getReadSize()` after it. -/
def run : ByteArray → List Op → Except Fault (List (Result × Nat))
  | _, [] => .ok []
  | s, op :: ops => do
    let (result, s') ← s.step op
    let results ← run s' ops
    .ok ((result, s'.getReadSize) :: results)

/-! ### The queue -/

namespace Fifo

/-- One call on a queue. -/
def step (q : List UInt8) : Op → Result × List UInt8
  | .write buf => (.unit, q ++ buf)
  | .read size => if size ≤ q.length then (.bytes (q.take size), q.drop size) else (.outOfRange, q)
  | .clear => (.unit, [])
  | .toString => (.bytes q, q)

/-- A sequence of calls on a queue: the result of each, and the length of the queue after it. -/
def run : List UInt8 → List Op → List (Result × Nat)
  | _, [] => []
  | q, op :: ops => ((step q op).1, (step q op).2.length) :: run (step q op).2 ops

end Fifo

/-- A caller cannot tell `ByteArray(B)` from an empty queue by the calls `ops`. -/
def Refines (B : Nat) (ops : List Op) : Prop := (new B).run ops = .ok (Fifo.run [] ops)

/-- **Full blocks.** Two writes, the first of which fills the only block, follow a null pointer. -/
theorem write_full_not_refines : ¬ ∀ B, 0 < B → ∀ ops, Refines B ops := by
  intro h
  exact absurd (h 1 Nat.one_pos [.write [65], .write [66]]) (by rintro ⟨⟩)

/-! ### The condition on the calls -/

/-- `w` bytes, written since the last `clear()`, fill whole blocks, at least one. -/
def FullBlocks (B w : Nat) : Prop := 0 < w ∧ B ∣ w

instance (B w : Nat) : Decidable (FullBlocks B w) := inferInstanceAs (Decidable (_ ∧ _))

/-- The bytes written and read since the last `clear()`, after one more call. -/
def Op.count : Op → Nat × Nat → Nat × Nat
  | .write buf, (w, r) => (w + buf.length, r)
  | .read size, (w, r) => (w, if size ≤ w - r then r + size else r)
  | .clear, _ => (0, 0)
  | .toString, (w, r) => (w, r)

/-- The condition on a call after `w` bytes have been written and `r` read: nothing is written
    behind full blocks, and no read of length 0 is made there when all has been read. -/
def Op.Fits (B : Nat) : Op → Nat × Nat → Prop
  | .write buf, (w, _) => buf.length ≠ 0 → ¬ FullBlocks B w
  | .read size, (w, r) => size = 0 → r = w → ¬ FullBlocks B w
  | .clear, _ => True
  | .toString, _ => True

instance (B : Nat) (c : Nat × Nat) : ∀ op : Op, Decidable (op.Fits B c)
  | .write _ => inferInstanceAs (Decidable (_ → _))
  | .read _ => inferInstanceAs (Decidable (_ → _ → _))
  | .clear => .isTrue trivial
  | .toString => .isTrue trivial

/-- Every call of a sequence meets the condition. -/
def Fits (B : Nat) : Nat × Nat → List Op → Prop
  | _, [] => True
  | c, op :: ops => op.Fits B c ∧ Fits B (op.count c) ops

instance decidableFits (B : Nat) : ∀ (c : Nat × Nat) (ops : List Op), Decidable (Fits B c ops)
  | _, [] => .isTrue trivial
  | c, op :: ops =>
    let _ := decidableFits B (op.count c) ops
    inferInstanceAs (Decidable (_ ∧ _))

/-! ### Exactness -/

/-- The numbers of bytes written and read since the last `clear()`. -/
def counts (s : ByteArray) : Nat × Nat := (s.m_writePos.pos, s.m_readPos.pos)

/-- No block is allocated before it is needed. -/
def Tight (s : ByteArray) : Prop :=
  s.getCapacity < s.m_baseSize ∨ (s.m_writePos.pos = 0 ∧ s.m_capacity = s.m_baseSize)

section
variable {s : ByteArray} {L : List Nat} {q : List UInt8} {n : Nat}

/-- The capacity is used up exactly when full blocks have been written. -/
theorem Tight.full_iff (ht : s.Tight) (hr : s.Rep L) :
    s.getCapacity = 0 ↔ FullBlocks s.m_baseSize s.m_writePos.pos := by
  have hcap := hr.capacity
  have hwrite := hr.write_le
  have hbase := hr.base
  have hlen : 0 < L.length := List.length_pos_of_ne_nil hr.nonempty
  have hpos : 0 < L.length * s.m_baseSize := Nat.mul_pos hlen hbase
  unfold getCapacity at *
  constructor
  · -- the blocks are as many as the bytes fill
    intro h0
    refine ⟨by omega, ?_⟩
    rw [show s.m_writePos.pos = L.length * s.m_baseSize by omega]
    exact Nat.dvd_mul_left ..
  · -- what is left is less than a block and a multiple of it
    rintro ⟨hw, hdvd⟩
    have hlt : s.m_capacity - s.m_writePos.pos < s.m_baseSize := by
      rcases ht with ht | ⟨h0, -⟩
      · exact ht
      · omega
    have hdvd' : s.m_baseSize ∣ s.m_capacity - s.m_writePos.pos := by
      refine Nat.dvd_sub ?_ hdvd
      rw [hcap]
      exact Nat.dvd_mul_left ..
    exact Nat.eq_zero_of_dvd_of_lt hdvd' hlt

/-- There is room to write, unless the capacity is used up. -/
theorem Tight.roomy_iff (ht : s.Tight) (hn : n ≠ 0) : s.Roomy n ↔ s.getCapacity ≠ 0 := by
  have hle : s.getCapacity ≤ s.m_baseSize := by
    rcases ht with ht | ⟨h0, hcap⟩
    · exact Nat.le_of_lt ht
    · unfold getCapacity; omega
  unfold Roomy
  omega

/-- A call that meets the condition does what it does on a queue. -/
theorem step_ok (hs : Stream s L q) (ht : s.Tight) {op : Op}
    (hfit : op.Fits s.m_baseSize s.counts) :
    ∃ s' L', s.step op = .ok ((Fifo.step q op).1, s') ∧ Stream s' L' (Fifo.step q op).2 ∧
      s'.Tight ∧ s'.m_baseSize = s.m_baseSize ∧ s'.counts = op.count s.counts := by
  have hlength := hs.length
  cases op with
  | write buf =>
    have hroomy : buf.length ≠ 0 → s.Roomy buf.length := fun hn =>
      (ht.roomy_iff hn).mpr fun h0 => hfit hn ((ht.full_iff hs.toRep).mp h0)
    obtain ⟨s', L', hrun, hs', hB, hw, hr, hsame, hcap⟩ := hs.write hroomy
    refine ⟨s', L', ?_, hs', ?_, hB, ?_⟩
    · simp only [step, hrun, bind, Except.bind, Fifo.step]
    · -- a write that has allocated leaves less than a block
      by_cases hn : buf.length = 0
      · exact hsame hn ▸ ht
      · left
        rw [hB]
        rcases hcap hn with hcap | hcap
        · have hpos := hs.base
          unfold Tight getCapacity at *
          omega
        · exact hcap
    · simp only [counts, Op.count, hw, hr]
  | read size =>
    by_cases hn : size ≤ q.length
    · -- the read cursor is null only behind full blocks that have been read
      have hcur : size ≠ 0 ∨ s.m_readPos.pos < s.m_capacity := by
        by_contra hc
        rw [not_or, not_not, not_lt] at hc
        have hwrite := hs.write_le
        apply hfit hc.1 (show s.m_readPos.pos = s.m_writePos.pos by omega)
        apply (ht.full_iff hs.toRep).mp
        unfold getCapacity
        omega
      obtain ⟨s', hrun, hs', hB, hw, hr, hcap⟩ := hs.read hn hcur
      refine ⟨s', L, ?_, ?_, ?_, hB, ?_⟩
      · simp only [step, hrun, bind, Except.bind, Fifo.step, hn, if_true, Result.ofOption]
      · simpa only [Fifo.step, hn, if_true] using hs'
      · unfold Tight getCapacity at *
        rwa [hw, hB, hcap]
      · simp only [counts, Op.count, hw, hr,
          show size ≤ s.m_writePos.pos - s.m_readPos.pos by omega,
          if_true]
    · -- the exception leaves both as they are
      refine ⟨s, L, ?_, ?_, ht, rfl, ?_⟩
      · simp only [step, hs.read_outOfRange (show q.length < size by omega), bind, Except.bind,
          Fifo.step, hn, if_false, Result.ofOption]
      · simpa only [Fifo.step, hn, if_false] using hs
      · simp only [counts, Op.count, show ¬ size ≤ s.m_writePos.pos - s.m_readPos.pos by omega,
          if_false]
  | clear =>
    obtain ⟨s', L', hrun, hs', hB, hw, hr, hcap⟩ := hs.clear
    refine ⟨s', L', ?_, hs', .inr ⟨hw, by rw [hcap, hB]⟩, hB, ?_⟩
    · simp only [step, hrun, bind, Except.bind, Fifo.step]
    · simp only [counts, Op.count, hw, hr]
  | toString =>
    refine ⟨s, L, ?_, hs, ht, rfl, rfl⟩
    simp only [step, hs.toString, bind, Except.bind, Fifo.step, Result.ofOption]

/-- A call that does not meet the condition follows a null pointer. -/
theorem step_null (hs : Stream s L q) (ht : s.Tight) {op : Op}
    (hfit : ¬ op.Fits s.m_baseSize s.counts) : s.step op = .error .null := by
  cases op with
  | write buf =>
    simp only [Op.Fits, counts, Classical.not_imp, not_not] at hfit
    obtain ⟨hn, hfull⟩ := hfit
    have hbad : ¬ s.Roomy buf.length := by
      rw [ht.roomy_iff hn, not_not]
      exact (ht.full_iff hs.toRep).mpr hfull
    simp only [step, hs.write_null hn hbad, bind, Except.bind]
  | read size =>
    simp only [Op.Fits, counts, Classical.not_imp, not_not] at hfit
    obtain ⟨rfl, hrw, hfull⟩ := hfit
    have h0 := (ht.full_iff hs.toRep).mpr hfull
    have hwrite := hs.write_le
    unfold getCapacity at h0
    simp only [step, hs.read_null (by omega), bind, Except.bind]
  | clear => exact absurd trivial hfit
  | toString => exact absurd trivial hfit

end

/-- The calls from any state on. -/
theorem run_iff_fits (ops : List Op) : ∀ {s : ByteArray} {L : List Nat} {q : List UInt8},
    Stream s L q → s.Tight →
    (s.run ops = .ok (Fifo.run q ops) ↔ Fits s.m_baseSize s.counts ops) := by
  induction ops with
  | nil => exact fun _ _ => iff_of_true rfl trivial
  | cons op ops ih =>
    intro s L q hs ht
    by_cases hfit : op.Fits s.m_baseSize s.counts
    · -- the counts go with the cursors
      obtain ⟨s', L', hrun, hs', ht', hB, hcounts⟩ := step_ok hs ht hfit
      have hiff := ih hs' ht'
      rw [hB, hcounts] at hiff
      simp only [Fits, hfit, true_and, ← hiff]
      simp only [run, hrun, bind, Except.bind, Fifo.run, hs'.getReadSize]
      cases hrest : s'.run ops <;> simp
    · refine iff_of_false ?_ fun h => hfit h.1
      simp [run, step_null hs ht hfit, bind, Except.bind]

/-- **The queue refinement, exactly.** A new `ByteArray` behaves as an unbounded byte queue under a
    sequence of calls exactly when no non-empty `write` starts behind full blocks and no `read` of
    length 0 is made when all bytes of full blocks have been read. -/
theorem refines_iff_fits (B : Nat) (hB : 0 < B) (ops : List Op) :
    Refines B ops ↔ Fits B (0, 0) ops :=
  run_iff_fits ops (stream_new hB) (.inr ⟨rfl, rfl⟩)

/-- Writes and reads across the boundary of blocks of two bytes. -/
theorem refines_iff_fits_two :
    Refines 2 [.write [1, 2, 3], .read 3, .read 0, .write [4, 5, 6], .toString] :=
  (refines_iff_fits 2 (by decide) _).mpr (by decide)

end LimWebserver.ByteArray
