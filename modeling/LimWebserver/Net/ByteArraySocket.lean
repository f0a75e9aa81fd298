import LimWebserver.Lib.Transition
import LimWebserver.Net.ByteArrayFifo
import Mathlib.Algebra.GroupWithZero.Nat

namespace LimWebserver.ByteArray

open LimWebserver.Lib

/-!
# Net — `ByteArray` as a socket buffer

`SocketStream::resv` reserves stretches with `getWriteBuffers`, lets the kernel fill them and
moves the write cursor by what has arrived.

* `resv`, `Call`, `system` — the socket path among the other calls, as a transition system;
* `SocketPath` — what it is for: the stretches are the next positions of the stream, and filling
  some of them is a `write`;
* `shortReceive_not_socketPath` — after a short receive it may fail;
* `Call.Fits` — the condition on the calls of a run; `socketPath_iff_roomy` — in every state that
  such a run reaches the next reservation works exactly when it meets the condition, too.
-/

/-! ### The calls -/

/-- `SocketStream::resv(ba, len)` when `arrived` is waiting at the socket: at most `len` bytes of it
    are received. -/
def resv (s : ByteArray) (len : Nat) (arrived : List UInt8) : Except Fault ByteArray := do
  let (iovs, s) ← s.getWriteBuffers len
  { s with heap := fill s.heap iovs (arrived.take len) }.addWritePosition (arrived.take len).length

/-- A call on a `ByteArray` that is also used as a socket buffer. -/
inductive Call
  | op (op : Op)
  | resv (len : Nat) (arrived : List UInt8)
  deriving DecidableEq, Repr

/-- One call. -/
def call (s : ByteArray) : Call → Except Fault ByteArray
  | .op op => (s.step op).map Prod.snd
  | .resv len arrived => s.resv len arrived

/-- A new `ByteArray(B)` under any calls. -/
def system (B : Nat) : LTS ByteArray Call where
  init := fun s => s = new B
  step := fun s c => (s.call c).toOption

/-- The blocks that following the pointers from `tmp` visits. -/
def walk : Nat → Option Nat → Heap → List Nat
  | 0, _, _ => []
  | _, none, _ => []
  | fuel + 1, some a, h =>
    match h a with
    | none => []
    | some node => a :: walk fuel node.next h

/-- The blocks that can be reached from `m_root`. -/
def blocks (s : ByteArray) : List Nat := walk s.fresh s.m_root s.heap

/-- The bytes in the blocks that can be reached from `m_root`. -/
def chainSize (s : ByteArray) : Nat :=
  (s.blocks.map fun a => ((s.heap a).map Node.size).getD 0).sum

/-! ### The property -/

/-- `getWriteBuffers(len)` yields the next `len` positions of the stream, and filling the first of
    them and moving the cursor is a `write` of these bytes. -/
def SocketPath (s : ByteArray) (len : Nat) : Prop :=
  ∃ iovs s₁, s.getWriteBuffers len = .ok (iovs, s₁) ∧
    (iovs.map IoVec.iov_len).sum = len ∧
    (cells iovs).map some =
      (List.range' s.m_writePos.pos len).map (cellAt s₁.blocks s₁.m_baseSize) ∧
    ∀ buf : List UInt8, buf.length ≤ len → ∃ s₂ s',
      { s₁ with heap := fill s₁.heap iovs buf }.addWritePosition buf.length = .ok s₂ ∧
      s.write buf = .ok s' ∧ s₂.toString = s'.toString ∧ s₂.getSize = s'.getSize ∧
      s₂.getReadSize = s'.getReadSize ∧ s₂.chainSize = s₂.m_capacity

/-- Does a call end at a null pointer? -/
def followsNull {α : Type} : Except Fault α → Bool
  | .error .null => true
  | _ => false

/-- **After a short receive.** One byte of six arrives in blocks of two, and then six more are asked
    for: the blocks behind the cursor are lost and the new one is not enough. -/
theorem shortReceive_not_socketPath :
    ¬ ∀ B, 0 < B → ∀ s, (system B).Reachable s → s.chainSize = s.m_capacity ∧
      ∀ len, 0 < len → SocketPath s len := by
  intro h
  have hnull : followsNull ((new 2).resv 6 [65] >>= fun s => s.getWriteBuffers 6) = true := by
    decide +kernel
  have hok : ((new 2).resv 6 [65]).toBool = true := by decide +kernel
  cases hs : (new 2).resv 6 [65] with
  | error e => rw [hs] at hok; cases hok
  | ok s =>
    have hr : (system 2).exec (new 2) [.resv 6 [65]] = some s := by
      simp [LTS.exec, system, call, hs, Except.toOption]
    obtain ⟨iovs, s₁, hrun, -⟩ := (h 2 (by decide) s (LTS.reachable_of_exec rfl hr)).2 6 (by decide)
    simp [hs, bind, Except.bind, hrun, followsNull] at hnull

/-- The condition on a call: a `write` or a reservation that has to grow finds room in the last
    block only, a `read` of length 0 is not made behind the last block, and no reservation of length
    0 is made there. -/
def Call.Fits (s : ByteArray) : Call → Prop
  | .op (.write buf) => buf.length ≠ 0 → s.Roomy buf.length
  | .op (.read size) => size = 0 → s.m_readPos.pos ≠ s.m_capacity
  | .op .clear => True
  | .op .toString => True
  | .resv len _ => if len = 0 then s.getCapacity ≠ 0 else s.Roomy len

section
variable {s : ByteArray} {L : List Nat} {q : List UInt8} {n : Nat}

/-- Walking a list of blocks. -/
theorem walk_of_chain : ∀ {l : List Nat} {fuel : Nat} {p : Option Nat} {h : Heap}, l.length ≤ fuel →
    Chain (nextOf h) p l none → (∀ a ∈ l, (h a).isSome) → walk fuel p h = l
  | [], fuel, p, h, _, hc, _ => by
    obtain rfl : p = none := hc
    cases fuel <;> rfl
  | a :: l, 0, _, _, hlen, _, _ => by simp at hlen
  | a :: l, fuel + 1, p, h, hlen, hc, hsome => by
    obtain ⟨rfl, hc⟩ := hc
    obtain ⟨node, hnode⟩ := Option.isSome_iff_exists.mp (hsome a List.mem_cons_self)
    rw [nextOf, hnode, Option.bind_some] at hc
    simp only [walk, hnode]
    rw [walk_of_chain (by simpa using hlen) hc fun b hb => hsome b (List.mem_cons_of_mem a hb)]

/-- The blocks of the list are the ones that can be reached. -/
theorem Linked.blocks_eq (hl : Linked s L none) : s.blocks = L := by
  apply walk_of_chain hl.length_le hl.chain
  intro a ha
  obtain ⟨node, hnode, -⟩ := hl.size a ha
  simp [hnode]

/-- **No block is lost.** -/
theorem Rep.chainSize (hr : Rep s L) : s.chainSize = s.m_capacity := by
  have hsize : ∀ a ∈ L, ((s.heap a).map Node.size).getD 0 = s.m_baseSize := by
    intro a ha
    obtain ⟨node, hnode, hsize⟩ := hr.linked.size a ha
    simp [hnode, hsize]
  rw [ByteArray.chainSize, hr.linked.blocks_eq, List.map_congr_left hsize, hr.capacity]
  simp

/-- The lengths of the stretches add up to the number of their bytes. -/
theorem sum_iov_len (iovs : List IoVec) : (iovs.map IoVec.iov_len).sum = (cells iovs).length := by
  simp [cells, List.length_flatMap]

/-- **Reserving.** `getWriteBuffers` with room. -/
theorem Stream.getWriteBuffers (hs : Stream s L q) (hn : n ≠ 0) (hok : s.Roomy n) :
    ∃ iovs s₁ L₁, s.getWriteBuffers n = .ok (iovs, s₁) ∧ Stream s₁ L₁ q ∧
      s₁.m_baseSize = s.m_baseSize ∧ s₁.m_writePos = s.m_writePos ∧ s₁.m_readPos = s.m_readPos ∧
      n ≤ s₁.getCapacity ∧ (cells iovs).map some =
        (List.range' s₁.m_writePos.pos n).map (cellAt L₁ s₁.m_baseSize) := by
  -- `addCapacity` makes room, and then the loop stays in the list
  obtain ⟨s₁, L₁, hrun, hs₁, hB, hw, hr, hroom, -⟩ := hs.addCapacity hok
  have hwrite := hs₁.write_le
  have hroom' := hroom
  unfold getCapacity at hroom'
  obtain ⟨iovs, hstr, hcells⟩ := hs₁.stretchesFrom (n := n) hs₁.writeCur (by omega) (by omega)
  refine ⟨iovs, s₁, L₁, ?_, hs₁, hB, hw, hr, hroom, hcells⟩
  simp only [ByteArray.getWriteBuffers, hn, if_false, hrun, bind, Except.bind, hstr]

/-- A reservation that cannot grow. -/
theorem Rep.getWriteBuffers_null (hr : Rep s L) (hn : n ≠ 0) (hbad : ¬ s.Roomy n) :
    s.getWriteBuffers n = .error .null := by
  unfold Roomy at hbad
  -- either `addCapacity` follows the null cursor, or the loop runs off the end of the list
  rcases hr.addCapacity_null (n := n) (by omega) (by omega) with hadd | ⟨s₁, hadd, hstr⟩
  · simp only [ByteArray.getWriteBuffers, hn, if_false, hadd, bind, Except.bind]
  · simp only [ByteArray.getWriteBuffers, hn, if_false, hadd, bind, Except.bind, hstr]

/-- **Receiving.** The kernel fills the first stretches, and `addWritePosition` moves the cursor. -/
theorem Stream.addWritePosition (hs : Stream s L q) {iovs : List IoVec} (buf : List UInt8)
    (hcells : (cells iovs).map some =
      (List.range' s.m_writePos.pos n).map (cellAt L s.m_baseSize))
    (hlen : buf.length ≤ n) (hroom : n ≤ s.getCapacity) (hcur : 0 < s.getCapacity) :
    ∃ s₂, { s with heap := ByteArray.fill s.heap iovs buf }.addWritePosition buf.length = .ok s₂ ∧
      Stream s₂ L (q ++ buf) ∧ s₂.m_baseSize = s.m_baseSize ∧
      s₂.m_writePos.pos = s.m_writePos.pos + buf.length ∧ s₂.m_readPos = s.m_readPos := by
  have hs₂ := hs.fill hcells hlen (Nat.le_trans hlen hroom)
  have hcap := hs.write_le
  unfold getCapacity at hroom hcur
  -- filling changes the bytes of the blocks, and not their links
  have hrep : Rep { s with heap := ByteArray.fill s.heap iovs buf } L :=
    ⟨hs.base, hs.nonempty, ⟨hs₂.linked.nodup, hs₂.linked.chain, hs₂.linked.size, hs₂.linked.fresh⟩,
      hs.capacity, hs.write_le, hs.read_le, hs.writeCur, hs.readCur⟩
  obtain ⟨iovs', hstr, -⟩ := hrep.stretchesFrom (p := s.m_writePos) (n := buf.length) hs.writeCur
    (show s.m_writePos.pos < s.m_capacity by omega)
    (show s.m_writePos.pos + buf.length ≤ s.m_capacity by omega)
  refine ⟨_, ?_, hs₂, rfl, rfl, rfl⟩
  simp only [ByteArray.addWritePosition, hstr, bind, Except.bind]

/-- **The two paths agree.** With room for `n` bytes the socket path is a `write`. -/
theorem Stream.socketPath (hs : Stream s L q) (hn : 0 < n) (hok : s.Roomy n) : SocketPath s n := by
  obtain ⟨iovs, s₁, L₁, hrun, hs₁, hB, hw, hr, hroom, hcells⟩ :=
    hs.getWriteBuffers (by omega) hok
  refine ⟨iovs, s₁, hrun, ?_, ?_, fun buf hlen => ?_⟩
  · rw [sum_iov_len]
    simpa using congrArg List.length hcells
  · rw [hs₁.linked.blocks_eq, ← hw]
    exact hcells
  · -- both paths end in the stream that holds `buf` behind the rest
    obtain ⟨s₂, hrun₂, hs₂, -, hw₂, hr₂⟩ :=
      hs₁.addWritePosition buf hcells hlen hroom (by omega)
    have hok' : buf.length ≠ 0 → s.Roomy buf.length := fun _ =>
      hok.imp (fun h => Nat.le_trans hlen h) id
    obtain ⟨s', L', hrun', hs', -, hw', hr', -⟩ := hs.write hok'
    refine ⟨s₂, s', hrun₂, hrun', ?_, ?_, ?_, hs₂.chainSize⟩
    · rw [hs₂.toString, hs'.toString]
    · simp only [getSize, hw₂, hw', hw]
    · simp only [hs₂.getReadSize, hs'.getReadSize]

/-- Every call that meets the condition keeps the representation. -/
theorem call_ok (hs : Stream s L q) {c : Call} (hfit : c.Fits s) :
    ∃ s' L' q', s.call c = .ok s' ∧ Stream s' L' q' ∧ s'.m_baseSize = s.m_baseSize := by
  have hlength := hs.length
  have hwrite := hs.write_le
  rcases c with (buf | size | _ | _) | ⟨len, arrived⟩
  · obtain ⟨s', L', hrun, hs', hB, -⟩ := hs.write hfit
    exact ⟨s', L', _, by simp [call, step, hrun, bind, Except.bind, Except.map], hs', hB⟩
  · by_cases hn : size ≤ q.length
    · have hcur : size ≠ 0 ∨ s.m_readPos.pos < s.m_capacity := by
        by_cases h0 : size = 0
        · have hne := hfit h0
          right; omega
        · exact .inl h0
      obtain ⟨s', hrun, hs', hB, -⟩ := hs.read hn hcur
      exact ⟨s', L, _, by simp [call, step, hrun, bind, Except.bind, Except.map], hs', hB⟩
    · have hrun := hs.read_outOfRange (n := size) (by omega)
      exact ⟨s, L, q, by simp [call, step, hrun, bind, Except.bind, Except.map], hs, rfl⟩
  · obtain ⟨s', L', hrun, hs', hB, -⟩ := hs.clear
    exact ⟨s', L', _, by simp [call, step, hrun, bind, Except.bind, Except.map], hs', hB⟩
  · exact ⟨s, L, q, by simp [call, step, hs.toString, bind, Except.bind, Except.map], hs, rfl⟩
  · by_cases hn : len = 0
    · -- nothing is reserved, and the write cursor is not null
      have hcur : 0 < s.getCapacity := Nat.pos_of_ne_zero (by simpa [Call.Fits, hn] using hfit)
      obtain ⟨s₂, hrun, hs₂, hB, -⟩ := hs.addWritePosition (n := 0) []
        (rfl : (cells []).map some = _) le_rfl (Nat.zero_le _) hcur
      refine ⟨s₂, L, _, ?_, hs₂, hB⟩
      simpa [call, ByteArray.resv, ByteArray.getWriteBuffers, hn, bind, Except.bind] using hrun
    · have hok : s.Roomy len := by simpa [Call.Fits, hn] using hfit
      obtain ⟨iovs, s₁, L₁, hrun₁, hs₁, hB₁, -, -, hroom, hcells⟩ := hs.getWriteBuffers hn hok
      obtain ⟨s₂, hrun, hs₂, hB, -⟩ := hs₁.addWritePosition (arrived.take len) hcells
        (List.length_take_le _ _) hroom (by omega)
      refine ⟨s₂, L₁, _, ?_, hs₂, hB.trans hB₁⟩
      simp only [call, ByteArray.resv, hrun₁, bind, Except.bind, hrun]

end

/-- **The socket path, exactly.** In every state that a run of calls reaches all of which meet the
    condition, no block is lost, and for every new `len` the socket path agrees with the copying
    path exactly when `getWriteBuffers(len)` has room. -/
theorem socketPath_iff_roomy (B : Nat) (hB : 0 < B) (s : ByteArray)
    (h : (system B).ReachableUnder (fun s c => c.Fits s) s) :
    s.chainSize = s.m_capacity ∧ ∀ len, 0 < len → (SocketPath s len ↔ s.Roomy len) := by
  -- the invariant of the run: the state represents some stream
  obtain ⟨L, q, hs⟩ : ∃ L q, Stream s L q := h.invariant (I := fun s => ∃ L q, Stream s L q)
    (fun s hs => ⟨_, _, hs ▸ stream_new hB⟩)
    (fun s c s' ⟨L, q, hs⟩ hfit hrun => by
      obtain ⟨s'', L', q', hrun', hs', -⟩ := call_ok hs hfit
      simp only [system, hrun', Except.toOption, Option.some.injEq] at hrun
      exact ⟨L', q', hrun ▸ hs'⟩)
  refine ⟨hs.chainSize, fun len hlen => ⟨fun ⟨iovs, s₁, hrun, _⟩ => ?_, fun hok => ?_⟩⟩
  · by_contra hbad
    rw [hs.getWriteBuffers_null (by omega) hbad] at hrun
    cases hrun
  · exact hs.socketPath hlen hok

/-- A short receive and a reservation that fits into what is left of it. -/
theorem socketPath_iff_roomy_short : ∃ s, (system 2).exec (new 2) [.resv 6 [65]] = some s ∧
    s.chainSize = s.m_capacity ∧ ∀ len, 0 < len → (SocketPath s len ↔ s.Roomy len) := by
  have hfit : Call.Fits (new 2) (.resv 6 [65]) := .inr ⟨by decide, by decide⟩
  obtain ⟨s, -, -, hrun, -⟩ := call_ok (stream_new (by decide)) hfit
  have hstep : (system 2).step (new 2) (.resv 6 [65]) = some s := by
    simp [system, hrun, Except.toOption]
  refine ⟨s, by simp [LTS.exec, hstep], socketPath_iff_roomy 2 (by decide) s ?_⟩
  exact .step (.init rfl) hfit hstep

end LimWebserver.ByteArray
