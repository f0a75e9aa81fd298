import LimWebserver.Net.ByteArraySocket

namespace LimWebserver.ByteArray

open LimWebserver.Lib

/-!
# Net — what has been written into a `ByteArray`

`Stream` knows the unread bytes only. The functions that take a position can go back to bytes that
have been read, so that here a `ByteArray` is seen together with all bytes since the last `clear()`.

* `Use`, `history` — every call, those of `SocketStream` included, and the bytes written so far;
* `Written` — the blocks hold these bytes; `Written.stream` — the last of them are the unread ones;
* `use_keeps`, `reachable_written` — every call that returns keeps this.
-/

/-- A call on a `ByteArray`. -/
inductive Use
  | call (c : Call)
  /-- `SocketStream::send(ba, length)` when the socket's `send` returns `rt` -/
  | send (length : Nat) (rt : Int32)
  deriving DecidableEq

/-- `SocketStream::send(ba, length)`; the socket accepts no more than it is given. -/
def send (s : ByteArray) (length : Nat) (rt : Int32) : Except Fault ByteArray := do
  let (size, _) ← s.getReadBuffers length
  if 0 < rt.toInt ∧ rt.toInt ≤ size then s.addReadPosition rt else .ok s

/-- One call. -/
def use (s : ByteArray) : Use → Except Fault ByteArray
  | .call c => s.call c
  | .send length rt => s.send length rt

/-- The bytes written since the last `clear()`, after one more call. -/
def Use.record (b : List UInt8) : Use → List UInt8
  | .call (.op (.write buf)) => b ++ buf
  | .call (.op .clear) => []
  | .call (.resv len arrived) => b ++ arrived.take len
  | _ => b

/-- A new `ByteArray(B)` under any calls that return, with what has been written into it. `size_t`
    can count its bytes, and a block holds at least one. -/
def history (B : Nat) : LTS (ByteArray × List UInt8) Use where
  init := fun x => x = (new B, []) ∧ 0 < B ∧ B < 2 ^ 64
  step := fun x u => ((x.1.use u).toOption.filter fun s => s.m_capacity < 2 ^ 64).map
    fun s => (s, u.record x.2)

/-- The blocks hold the bytes `b` from the first one on. -/
structure Written (s : ByteArray) (L : List Nat) (b : List UInt8) : Prop extends Rep s L where
  bytes : Holds s.heap L s.m_baseSize 0 b
  length : b.length = s.m_writePos.pos

/-- What comes before in a sequence has returned. -/
theorem bind_eq_ok {ε α β : Type} {x : Except ε α} {f : α → Except ε β} {y : β}
    (h : x >>= f = .ok y) : ∃ a, x = .ok a ∧ f a = .ok y := by
  cases x with
  | error e => cases h
  | ok a => exact ⟨a, rfl, h⟩

section
variable {s s' : ByteArray} {L : List Nat} {b : List UInt8} {n : Nat}

theorem written_new {B : Nat} (hB : 0 < B) : Written (new B) [0] [] := ⟨rep_new hB, rfl, rfl⟩

/-- The unread bytes are the last ones. -/
theorem Written.stream (hw : Written s L b) : Stream s L (b.drop s.m_readPos.pos) := by
  refine ⟨hw.toRep, ?_, ?_⟩
  · have hdrop := hw.bytes.drop s.m_readPos.pos
    rwa [Nat.zero_add] at hdrop
  · rw [List.length_drop, hw.length]
    have := hw.read_le
    omega

/-- Nothing is unread in an empty array. -/
theorem Written.stream_nil (hw : Written s L b) (hempty : s.getReadSize = 0) : Stream s L [] := by
  have hs := hw.stream
  have hq := hs.getReadSize
  rw [hempty] at hq
  rwa [List.length_eq_zero_iff.mp hq.symm] at hs

/-- The read cursor moves on. -/
theorem Written.advance (hw : Written s L b) (hn : n ≤ s.getReadSize) :
    Written { s with m_readPos := ⟨s.m_readPos.pos + n,
      L[(s.m_readPos.pos + n) / s.m_baseSize]?⟩ } L b := by
  have hread := hw.read_le
  unfold ByteArray.getReadSize at hn
  exact ⟨⟨hw.base, hw.nonempty, ⟨hw.linked.nodup, hw.linked.chain, hw.linked.size, hw.linked.fresh⟩,
    hw.capacity, hw.write_le, (by show s.m_readPos.pos + n ≤ s.m_writePos.pos; omega), hw.writeCur,
    rfl⟩, hw.bytes, hw.length⟩

/-- Reserving changes no byte. -/
theorem Written.addCapacity (hw : Written s L b) (hok : s.Roomy n) :
    ∃ s₁ L₁, s.addCapacity n = .ok s₁ ∧ Written s₁ L₁ b ∧ n ≤ s₁.getCapacity ∧
      s₁.m_writePos = s.m_writePos := by
  obtain ⟨s₁, new, hrun, hrep, hB, hpos, -, hroom, -, hbytes⟩ := hw.toRep.addCapacity hok
  have hend : 0 + b.length ≤ s.m_capacity := by
    rw [Nat.zero_add, hw.length]
    exact hw.write_le
  refine ⟨s₁, L ++ new, hrun, ⟨hrep, ?_, ?_⟩, hroom, hpos⟩
  · rw [hB]
    exact hbytes 0 b hw.bytes hend
  · rw [hpos]
    exact hw.length

/-- Bytes are copied behind those that are there, and the write cursor moves over them. -/
theorem Written.fill (hw : Written s L b) {iovs : List IoVec} {len : Nat} {buf : List UInt8}
    (hcells : (cells iovs).map some =
      (List.range' s.m_writePos.pos len).map (cellAt L s.m_baseSize))
    (hlen : buf.length ≤ len) (hroom : buf.length ≤ s.getCapacity) :
    Written { s with
      heap := ByteArray.fill s.heap iovs buf
      m_writePos := ⟨s.m_writePos.pos + buf.length,
        L[(s.m_writePos.pos + buf.length) / s.m_baseSize]?⟩ } L (b ++ buf) := by
  have hrep := (hw.stream.fill hcells hlen hroom).toRep
  rw [← hw.length, ← Nat.zero_add b.length] at hcells
  obtain ⟨-, hholds⟩ := hw.bytes.fill hw.linked.blocks hcells hlen
  refine ⟨hrep, hholds, ?_⟩
  rw [List.length_append, hw.length]

/-- A `write` that returns. -/
theorem Written.write (hw : Written s L b) {buf : List UInt8} (hrun : s.write buf = .ok s') :
    ∃ L', Written s' L' (b ++ buf) := by
  by_cases hn : buf.length = 0
  · obtain rfl := List.length_eq_zero_iff.mp hn
    rw [List.append_nil]
    simp only [ByteArray.write, hn, if_true, Except.ok.injEq] at hrun
    exact ⟨L, hrun ▸ hw⟩
  · by_cases hok : s.Roomy buf.length
    · obtain ⟨s₁, L₁, hadd, hw₁, hroom, -⟩ := hw.addCapacity hok
      have hwrite := hw₁.write_le
      have hroom' := hroom
      unfold getCapacity at hroom'
      obtain ⟨iovs, hstr, hcells⟩ := hw₁.toRep.stretchesFrom (n := buf.length) hw₁.writeCur
        (by omega) (by omega)
      simp only [ByteArray.write, hn, if_false, hadd, bind, Except.bind, hstr,
        Except.ok.injEq] at hrun
      exact ⟨L₁, hrun ▸ hw₁.fill hcells le_rfl hroom⟩
    · rw [hw.toRep.write_null hn hok] at hrun
      cases hrun

/-- `addWritePosition` over bytes that the kernel has filled in. -/
theorem Written.addWritePosition (hw : Written s L b) {iovs : List IoVec} {buf : List UInt8}
    (hcells : (cells iovs).map some =
      (List.range' s.m_writePos.pos n).map (cellAt L s.m_baseSize))
    (hlen : buf.length ≤ n) (hroom : n ≤ s.getCapacity)
    (hrun : { s with heap := ByteArray.fill s.heap iovs buf }.addWritePosition buf.length =
      .ok s') : Written s' L (b ++ buf) := by
  have hfill := hw.fill hcells hlen (Nat.le_trans hlen hroom)
  have hwrite := hw.write_le
  have hcur : 0 < s.getCapacity := by
    -- behind the last block the cursor is null
    by_contra hfull
    unfold getCapacity at hfull
    have hnull : s.m_writePos.cur = none := by
      rw [hw.writeCur, show s.m_writePos.pos = L.length * s.m_baseSize by
        rw [← hw.capacity]; omega, Nat.mul_div_cancel _ hw.base, List.getElem?_eq_none le_rfl]
    simp [ByteArray.addWritePosition, ByteArray.stretchesFrom, hnull, ByteArray.deref, bind,
      Except.bind] at hrun
  unfold getCapacity at hroom hcur
  -- filling changes the bytes of the blocks, and not their links
  have hrep : Rep { s with heap := ByteArray.fill s.heap iovs buf } L :=
    ⟨hw.base, hw.nonempty,
      ⟨hfill.linked.nodup, hfill.linked.chain, hfill.linked.size, hfill.linked.fresh⟩,
      hw.capacity, hw.write_le, hw.read_le, hw.writeCur, hw.readCur⟩
  obtain ⟨iovs', hstr, -⟩ := hrep.stretchesFrom (p := s.m_writePos) (n := buf.length) hw.writeCur
    (show s.m_writePos.pos < s.m_capacity by omega)
    (show s.m_writePos.pos + buf.length ≤ s.m_capacity by omega)
  simp only [ByteArray.addWritePosition, hstr, bind, Except.bind, Except.ok.injEq] at hrun
  exact hrun ▸ hfill

/-- `SocketStream::resv` that returns. -/
theorem Written.resv (hw : Written s L b) {len : Nat} {arrived : List UInt8}
    (hrun : s.resv len arrived = .ok s') : ∃ L', Written s' L' (b ++ arrived.take len) := by
  obtain ⟨⟨iovs, s₁⟩, hbuf, hadd⟩ := bind_eq_ok hrun
  by_cases hn : len = 0
  · simp only [ByteArray.getWriteBuffers, hn, if_true, Except.ok.injEq, Prod.mk.injEq] at hbuf
    obtain ⟨rfl, rfl⟩ := hbuf
    exact ⟨L, hw.addWritePosition (n := 0) rfl (by simp [hn]) (Nat.zero_le _) hadd⟩
  · by_cases hok : s.Roomy len
    · obtain ⟨s₂, L₂, hcap, hw₂, hroom, -⟩ := hw.addCapacity hok
      have hwrite := hw₂.write_le
      have hroom' := hroom
      unfold getCapacity at hroom'
      obtain ⟨iovs', hstr, hcells⟩ := hw₂.toRep.stretchesFrom (n := len) hw₂.writeCur
        (by omega) (by omega)
      simp only [ByteArray.getWriteBuffers, hn, if_false, hcap, bind, Except.bind, hstr,
        Except.ok.injEq, Prod.mk.injEq] at hbuf
      obtain ⟨rfl, rfl⟩ := hbuf
      exact ⟨L₂, hw₂.addWritePosition hcells (List.length_take_le _ _) hroom hadd⟩
    · rw [hw.toRep.getWriteBuffers_null hn hok] at hbuf
      cases hbuf

/-! ### Reading -/

/-- The loop over blocks behind the read cursor. -/
theorem Written.readStretches (hw : Written s L b) (hn : n ≤ s.getReadSize)
    (hcur : s.m_readPos.pos < s.m_capacity) :
    ∃ iovs, s.stretchesFrom s.m_readPos n =
        .ok (iovs, L[(s.m_readPos.pos + n) / s.m_baseSize]?) ∧
      (cells iovs).map some = (List.range' s.m_readPos.pos n).map (cellAt L s.m_baseSize) := by
  have hread := hw.read_le
  have hwrite := hw.write_le
  unfold ByteArray.getReadSize at hn
  exact hw.toRep.stretchesFrom hw.readCur hcur (by omega)

/-- Behind the last block the read cursor is null. -/
theorem Rep.readCur_null (hr : Rep s L) (hfull : ¬ s.m_readPos.pos < s.m_capacity) :
    s.m_readPos.cur = none := by
  have hread := hr.read_le
  have hwrite := hr.write_le
  rw [hr.readCur, show s.m_readPos.pos = L.length * s.m_baseSize by rw [← hr.capacity]; omega,
    Nat.mul_div_cancel _ hr.base, List.getElem?_eq_none le_rfl]

theorem Rep.readNull (hr : Rep s L) (hfull : ¬ s.m_readPos.pos < s.m_capacity) (n : Nat) :
    s.stretchesFrom s.m_readPos n = .error .null := by
  simp [ByteArray.stretchesFrom, hr.readCur_null hfull, ByteArray.deref, bind, Except.bind]

/-- A `read` that returns. -/
theorem Written.read (hw : Written s L b) {x : Option (List UInt8)}
    (hrun : s.read n = .ok (x, s')) : Written s' L b := by
  unfold ByteArray.read at hrun
  split at hrun
  · simp only [Except.ok.injEq, Prod.mk.injEq] at hrun
    exact hrun.2 ▸ hw
  · rename_i hn
    by_cases hcur : s.m_readPos.pos < s.m_capacity
    · obtain ⟨iovs, hstr, -⟩ := hw.readStretches (Nat.le_of_not_lt hn) hcur
      simp only [hstr, bind, Except.bind, Except.ok.injEq, Prod.mk.injEq] at hrun
      exact hrun.2 ▸ hw.advance (Nat.le_of_not_lt hn)
    · simp only [hw.toRep.readNull hcur, bind, Except.bind, reduceCtorEq] at hrun

/-- An `addReadPosition` over unread bytes that returns. -/
theorem Written.addReadPosition (hw : Written s L b) {len : Int32}
    (hn : len.toInt.toNat ≤ s.getReadSize) (hrun : s.addReadPosition len = .ok s') :
    Written s' L b := by
  by_cases hcur : s.m_readPos.pos < s.m_capacity
  · obtain ⟨iovs, hstr, -⟩ := hw.readStretches hn hcur
    simp only [ByteArray.addReadPosition, hstr, bind, Except.bind, Except.ok.injEq] at hrun
    exact hrun ▸ hw.advance hn
  · simp only [ByteArray.addReadPosition, hw.toRep.readNull hcur, bind, Except.bind,
      reduceCtorEq] at hrun

/-- `getReadBuffers` counts no more bytes than there are. -/
theorem getReadBuffers_le {len size : Nat} {iovs : List IoVec}
    (hrun : s.getReadBuffers len = .ok (size, iovs)) : size ≤ s.getReadSize := by
  unfold getReadBuffers at hrun
  generalize hm : (if s.getReadSize < len then s.getReadSize else len) = m at hrun
  have hle : m ≤ s.getReadSize := by
    rw [← hm]
    split <;> omega
  simp only at hrun
  split at hrun
  · simp only [Except.ok.injEq, Prod.mk.injEq] at hrun
    omega
  · obtain ⟨⟨iovs', cur⟩, -, hret⟩ := bind_eq_ok hrun
    simp only [Except.ok.injEq, Prod.mk.injEq] at hret
    omega

/-! ### Writing what fits -/

/-- A `write` within the capacity. -/
theorem Stream.write_fits {q : List UInt8} (hs : Stream s L q) (buf : List UInt8)
    (hn : buf.length ≤ s.getCapacity) :
    ∃ s', s.write buf = .ok s' ∧ Stream s' L (q ++ buf) ∧
      s'.getCapacity = s.getCapacity - buf.length ∧ s'.m_readPos = s.m_readPos ∧
      s'.m_capacity = s.m_capacity ∧ s'.m_baseSize = s.m_baseSize := by
  by_cases h0 : buf.length = 0
  · obtain rfl := List.length_eq_zero_iff.mp h0
    exact ⟨s, by simp [ByteArray.write], by simpa using hs, rfl, rfl, rfl, rfl⟩
  · have hwrite := hs.write_le
    have hroom := hn
    unfold getCapacity at hn
    obtain ⟨iovs, hstr, hcells⟩ := hs.toRep.stretchesFrom (n := buf.length) hs.writeCur
      (by omega) (by omega)
    refine ⟨_, ?_, hs.fill hcells le_rfl hroom, ?_, rfl, rfl, rfl⟩
    · simp only [ByteArray.write, h0, if_false, addCapacity_of_le hroom, bind, Except.bind, hstr]
    · unfold getCapacity
      simp only
      omega

/-! ### All calls -/

/-- **What a call keeps.** After a call that returns the blocks hold what has been written. -/
theorem use_keeps (hw : Written s L b) {u : Use} (hrun : s.use u = .ok s') :
    ∃ L', Written s' L' (u.record b) := by
  rcases u with (op | ⟨len, arrived⟩) | ⟨length, rt⟩
  · obtain ⟨⟨result, s₁⟩, hstep, rfl⟩ : ∃ x, s.step op = .ok x ∧ x.2 = s' := by
      cases hstep : s.step op with
      | error e => simp [use, call, hstep, Except.map] at hrun
      | ok x => exact ⟨x, rfl, by simpa [use, call, hstep, Except.map] using hrun⟩
    cases op with
    | write buf =>
      obtain ⟨s₂, hwrite, hret⟩ := bind_eq_ok hstep
      simp only [Except.ok.injEq, Prod.mk.injEq] at hret
      exact hret.2 ▸ hw.write hwrite
    | read size =>
      obtain ⟨⟨x, s₂⟩, hread, hret⟩ := bind_eq_ok hstep
      simp only [Except.ok.injEq, Prod.mk.injEq] at hret
      exact ⟨L, hret.2 ▸ hw.read hread⟩
    | clear =>
      obtain ⟨s₂, hclear, hret⟩ := bind_eq_ok hstep
      obtain ⟨s₃, L₃, hrun₃, hs₃, -, hpos, -⟩ := hw.toRep.clear
      simp only [Except.ok.injEq, Prod.mk.injEq] at hret
      obtain rfl : s₃ = s₁ := by
        rw [← hret.2]
        exact Except.ok.inj (hrun₃.symm.trans hclear)
      exact ⟨L₃, hs₃.toRep, rfl, hpos.symm⟩
    | toString =>
      obtain ⟨x, -, hret⟩ := bind_eq_ok hstep
      simp only [Except.ok.injEq, Prod.mk.injEq] at hret
      exact ⟨L, hret.2 ▸ hw⟩
  · exact hw.resv hrun
  · obtain ⟨⟨size, iovs⟩, hbuf, hret⟩ := bind_eq_ok hrun
    replace hret : (if 0 < rt.toInt ∧ rt.toInt ≤ size then s.addReadPosition rt else .ok s) =
        .ok s' := hret
    split at hret
    · have hle := getReadBuffers_le hbuf
      exact ⟨L, hw.addReadPosition (by omega) hret⟩
    · simp only [Except.ok.injEq] at hret
      exact ⟨L, hret ▸ hw⟩

end

/-- One more call. -/
theorem reachable_use {B : Nat} {s s' : ByteArray} {b : List UInt8} {u : Use}
    (h : (history B).Reachable (s, b)) (hrun : s.use u = .ok s') (hcap : s'.m_capacity < 2 ^ 64) :
    (history B).Reachable (s', u.record b) := by
  refine h.step trivial (a := u) ?_
  simpa [history, hrun, Except.toOption] using hcap

/-- **Every reachable state.** The blocks hold all bytes written since the last `clear()`. -/
theorem reachable_written {B : Nat} {s : ByteArray} {b : List UInt8}
    (h : (history B).Reachable (s, b)) : (∃ L, Written s L b) ∧ s.m_capacity < 2 ^ 64 := by
  apply h.invariant (I := fun x => (∃ L, Written x.1 L x.2) ∧ x.1.m_capacity < 2 ^ 64)
  · rintro x ⟨rfl, hB, hsize⟩
    exact ⟨⟨_, written_new hB⟩, hsize⟩
  · rintro ⟨s, b⟩ u x ⟨⟨L, hw⟩, -⟩ - hstep
    obtain ⟨s', hfilter, rfl⟩ := Option.map_eq_some_iff.mp hstep
    obtain ⟨hrun, hcap⟩ := Option.filter_eq_some_iff.mp hfilter
    refine ⟨use_keeps hw ?_, by simpa using hcap⟩
    cases huse : s.use u with
    | error e => simp [huse, Except.toOption] at hrun
    | ok s₁ => simpa [huse, Except.toOption] using hrun

/-- A new `ByteArray` with bytes in its only block. -/
theorem reachable_write {B : Nat} {buf : List UInt8} (hB : 0 < B) (hsize : B < 2 ^ 64)
    (hfits : buf.length ≤ B) :
    ∃ s, (new B).write buf = .ok s ∧ (history B).Reachable (s, buf) ∧ Stream s [0] buf ∧
      s.getCapacity = B - buf.length ∧ s.m_readPos.pos = 0 := by
  obtain ⟨s, hwrite, hs, hfree, hpos, hcap, -⟩ := (stream_new hB).write_fits buf
    (show buf.length ≤ (new B).getCapacity from hfits)
  have hrun : (new B).use (.call (.op (.write buf))) = .ok s := by
    simp only [use, call, step, hwrite, bind, Except.bind, Except.map]
  refine ⟨s, hwrite, ?_, hs, hfree, by rw [hpos]; rfl⟩
  exact reachable_use (.init ⟨rfl, hB, hsize⟩) hrun (by rw [hcap]; exact hsize)

end LimWebserver.ByteArray
