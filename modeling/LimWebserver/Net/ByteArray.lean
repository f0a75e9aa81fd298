import Mathlib.Algebra.Group.Nat.Defs
import Mathlib.Logic.Function.Basic

namespace LimWebserver

/-!
# Net — `ByteArray`: a byte stream in linked blocks

`ByteArray` keeps its bytes in a list of equal blocks with a cursor for writing and one for
reading.  The blocks live in a heap here, so that following a null pointer or reading a freed
block is an outcome of the model and not a matter of proof.

* `Node`, `Pointer`, `ByteArray` — the data as the source declares it;
* `stretches` — the loop over blocks that all copying functions share;
* `addCapacity`, `clear`, `write`, `read`, `readAt`, `toString`;
* `getReadBuffers`, `getWriteBuffers`, `addWritePosition`, `addReadPosition` — the socket's side.
-/

/-- What goes wrong when an operation leaves the list of blocks. -/
inductive Fault
  /-- a null pointer is followed -/
  | null
  /-- a freed block is used -/
  | freed
  /-- a loop does not end -/
  | stuck
  deriving DecidableEq, Repr

namespace ByteArray

/-- A memory block: its bytes, the pointer to the next block and its size. -/
structure Node where
  ptr : Nat → UInt8
  next : Option Nat
  size : Nat

/-- A position in the stream and the block that holds it. -/
structure Pointer where
  pos : Nat
  cur : Option Nat
  deriving DecidableEq, Repr

/-- The blocks by address. -/
abbrev Heap := Nat → Option Node

/-- A stretch of `iov_len` bytes in a block. -/
structure IoVec where
  block : Nat
  offset : Nat
  iov_len : Nat
  deriving DecidableEq, Repr

/-- The addresses of the bytes of some stretches: block and offset. -/
def cells (iovs : List IoVec) : List (Nat × Nat) :=
  iovs.flatMap fun v => (List.range' v.offset v.iov_len).map fun o => (v.block, o)

/-- Read a block through a pointer. -/
def deref (h : Heap) : Option Nat → Except Fault Node
  | none => .error .null
  | some a =>
    match h a with
    | none => .error .freed
    | some node => .ok node

/-- Write one byte. -/
def setByte (h : Heap) (c : Nat × Nat) (b : UInt8) : Heap :=
  match h c.1 with
  | none => h
  | some node => Function.update h c.1 (some { node with ptr := Function.update node.ptr c.2 b })

/-- Copy bytes into stretches of blocks until one of the two is used up. -/
def fill (h : Heap) (iovs : List IoVec) (buf : List UInt8) : Heap :=
  ((cells iovs).zip buf).foldl (fun h cb => setByte h cb.1 cb.2) h

/-- The byte at an address. -/
def byteAt (h : Heap) (c : Nat × Nat) : Option UInt8 := (h c.1).map fun node => node.ptr c.2

/-- Copy the bytes out of stretches of blocks. -/
def gather (h : Heap) (iovs : List IoVec) : List UInt8 := (cells iovs).filterMap (byteAt h)

/-- The loop over blocks of `write`, `read`, `getWriteBuffers` and `addWritePosition`: `len` bytes
    are left, `ncap` of them fit into the block `cur` from its offset `npos` on.  It yields the
    stretches in order and the cursor behind them; what a function copies into or out of the
    stretches has no part in the control flow.  Every round handles a byte, `fuel` counts them. -/
def stretches (h : Heap) : Nat → Option Nat → Nat → Nat → Nat →
    Except Fault (List IoVec × Option Nat)
  | fuel, cur, npos, ncap, len =>
    if len = 0 then .ok ([], cur)
    else match fuel with
    | 0 => .error .stuck
    | fuel + 1 =>
      match cur with
      | none => .error .null
      | some a => do
        let node ← deref h cur
        if len ≤ ncap then
          -- a cursor at the end of its block moves on, if only to null
          .ok ([⟨a, npos, len⟩], if node.size = npos + len then node.next else cur)
        else
          let next ← deref h node.next
          let (iovs, cur') ← stretches h fuel node.next 0 next.size (len - ncap)
          .ok (⟨a, npos, ncap⟩ :: iovs, cur')

end ByteArray

/-- The stream. -/
structure ByteArray where
  m_baseSize : Nat
  m_writePos : ByteArray.Pointer
  m_readPos : ByteArray.Pointer
  m_capacity : Nat
  m_root : Option Nat
  /-- the blocks in use -/
  heap : ByteArray.Heap
  /-- the address of the next block that `new` yields -/
  fresh : Nat

namespace ByteArray

/-- `ByteArray(base_size)`. -/
def new (base_size : Nat) : ByteArray where
  m_baseSize := base_size
  m_writePos := ⟨0, some 0⟩
  m_readPos := ⟨0, some 0⟩
  m_capacity := base_size
  m_root := some 0
  heap := Function.update (fun _ => none) 0 (some ⟨fun _ => 0, none, base_size⟩)
  fresh := 1

variable (s : ByteArray)

/-- `getReadSize()`: the bytes that have not been read. -/
def getReadSize : Nat := s.m_writePos.pos - s.m_readPos.pos

/-- `getSize()`. -/
def getSize : Nat := s.m_writePos.pos

/-- `getCapacity()`: the bytes that fit without a new block. -/
def getCapacity : Nat := s.m_capacity - s.m_writePos.pos

/-- The stretches for `len` bytes from a cursor on. -/
def stretchesFrom (p : Pointer) (len : Nat) : Except Fault (List IoVec × Option Nat) := do
  let node ← deref s.heap p.cur
  stretches s.heap len p.cur (p.pos % s.m_baseSize) (node.size - p.pos % s.m_baseSize) len

/-- The loop of `addCapacity`: append `count` new blocks behind the block `tmp`. -/
def appendBlocks : Nat → Option Nat → Option Nat → ByteArray →
    Except Fault (Option Nat × ByteArray)
  | 0, _, first, s => .ok (first, s)
  | count + 1, tmp, first, s => do
    let node ← deref s.heap tmp
    let heap := Function.update s.heap s.fresh (some ⟨fun _ => 0, none, s.m_baseSize⟩)
    appendBlocks count (some s.fresh) (first.or (some s.fresh))
      { s with
        heap := match tmp with
          | none => heap
          | some a => Function.update heap a (some { node with next := some s.fresh })
        fresh := s.fresh + 1
        m_capacity := s.m_capacity + s.m_baseSize }

/-- `addCapacity(size)`; the number of blocks, `ceil(1.0 * size / m_baseSize)`, is taken exactly,
    as it is for sizes below `2 ^ 53`. -/
def addCapacity (size : Nat) : Except Fault ByteArray :=
  if size = 0 then .ok s
  else
    let old_cap := s.getCapacity
    if size ≤ old_cap then .ok s
    else do
      let count := (size - old_cap + s.m_baseSize - 1) / s.m_baseSize
      -- the new blocks come behind the cursor, wherever in the list it stands
      let (first, s') ← appendBlocks count s.m_writePos.cur none s
      .ok (if old_cap = 0 then { s' with m_writePos := { s'.m_writePos with cur := first } }
        else s')

/-- The loop of `clear` that deletes the blocks from `tmp` on. -/
def deleteBlocks : Nat → Option Nat → Heap → Except Fault Heap
  | _, none, h => .ok h
  | 0, some _, _ => .error .stuck
  | fuel + 1, some a, h => do
    let node ← deref h (some a)
    deleteBlocks fuel node.next (Function.update h a none)

/-- `clear()`. -/
def clear : Except Fault ByteArray :=
  match s.m_root with
  | none => .error .null
  | some root => do
    let node ← deref s.heap s.m_root
    let heap ← deleteBlocks s.fresh node.next s.heap
    .ok { s with
      m_writePos := ⟨0, s.m_root⟩
      m_readPos := ⟨0, s.m_root⟩
      m_capacity := s.m_baseSize
      heap := Function.update heap root (some { node with next := none }) }

/-- `write(buf, size)`. -/
def write (buf : List UInt8) : Except Fault ByteArray :=
  if buf.length = 0 then .ok s
  else do
    let s ← s.addCapacity buf.length
    let (iovs, cur) ← s.stretchesFrom s.m_writePos buf.length
    .ok { s with heap := fill s.heap iovs buf, m_writePos := ⟨s.m_writePos.pos + buf.length, cur⟩ }

/-- `read(buf, size)`: the bytes, or `none` when it throws `std::out_of_range`. -/
def read (size : Nat) : Except Fault (Option (List UInt8) × ByteArray) :=
  if s.getReadSize < size then .ok (none, s)
  else do
    let (iovs, cur) ← s.stretchesFrom s.m_readPos size
    .ok (some (gather s.heap iovs), { s with m_readPos := ⟨s.m_readPos.pos + size, cur⟩ })

/-- `a - b` of two `size_t`, which wraps around. -/
def sizeSub (a b : Nat) : Nat := if b ≤ a then a - b else 2 ^ 64 - (b - a)

/-- `read(buf, size, position)`, which leaves the read cursor where it is. -/
def readAt (size position : Nat) : Except Fault (Option (List UInt8)) :=
  if sizeSub s.m_writePos.pos position < size then .ok none
  else do
    let (iovs, _) ← s.stretchesFrom ⟨position, s.m_readPos.cur⟩ size
    .ok (some (gather s.heap iovs))

/-- `toString()`. -/
def toString : Except Fault (Option (List UInt8)) :=
  if s.getReadSize = 0 then .ok (some []) else s.readAt s.getReadSize s.m_readPos.pos

/-- `getReadBuffers(buffers, len)`: the number of bytes, and where they are. -/
def getReadBuffers (len : Nat) : Except Fault (Nat × List IoVec) :=
  let len := if s.getReadSize < len then s.getReadSize else len
  if len = 0 then .ok (0, [])
  else do
    let (iovs, _) ← s.stretchesFrom s.m_readPos len
    .ok (len, iovs)

/-- The loop of `getReadBuffers` that goes `count` blocks on. -/
def forward (h : Heap) : Nat → Option Nat → Except Fault (Option Nat)
  | 0, cur => .ok cur
  | count + 1, cur => do
    let node ← deref h cur
    forward h count node.next

/-- `getReadBuffers(buffers, len, position)`, which finds its first block from the root. -/
def getReadBuffersAt (len position : Nat) : Except Fault (Nat × List IoVec) :=
  let len := if s.getReadSize < len then s.getReadSize else len
  if len = 0 then .ok (0, [])
  else do
    let cur ← forward s.heap (position / s.m_baseSize) s.m_root
    let (iovs, _) ← s.stretchesFrom ⟨position, cur⟩ len
    .ok (len, iovs)

/-- `getWriteBuffers(buffers, len)`: the stretches for `len` bytes behind the write cursor. -/
def getWriteBuffers (len : Nat) : Except Fault (List IoVec × ByteArray) :=
  if len = 0 then .ok ([], s)
  else do
    let s ← s.addCapacity len
    let (iovs, _) ← s.stretchesFrom s.m_writePos len
    .ok (iovs, s)

/-- `addWritePosition(len)`. -/
def addWritePosition (len : Nat) : Except Fault ByteArray := do
  let (_, cur) ← s.stretchesFrom s.m_writePos len
  .ok { s with m_writePos := ⟨s.m_writePos.pos + len, cur⟩ }

/-- `addReadPosition(len)`; a negative `len` moves nothing. -/
def addReadPosition (len : Int32) : Except Fault ByteArray := do
  let (_, cur) ← s.stretchesFrom s.m_readPos len.toInt.toNat
  .ok { s with m_readPos := ⟨s.m_readPos.pos + len.toInt.toNat, cur⟩ }

end ByteArray

end LimWebserver
