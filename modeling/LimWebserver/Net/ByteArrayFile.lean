import LimWebserver.Net.ByteArrayHistory
import Mathlib.Data.UInt

namespace LimWebserver.ByteArray

open LimWebserver.Lib

/-!
# Net — a `ByteArray` and a file

A file is a string of bytes, or nothing when it cannot be opened.

* `int64`, `int32` — what is left of a number in a signed integer;
* `toFile`, `fromFile` — the two loops;
* `Stored`, `Loaded` — what they are to do; `toFile_not_stored` — bytes that are not at the start
  of their block are not stored;
* `toFileLoop_aligned`, `toFileLoop_ne_ok` — the rounds of `toFile`;
* `Chunked`, `file_iff` — when all the bytes arrive.
-/

/-- What goes wrong with a file. -/
inductive FileFault
  | array (fault : Fault)
  /-- a count below zero, or bytes outside the block -/
  | outside
  deriving DecidableEq, Repr

/-- The number in an `int64_t`. -/
def int64 (x : Int) : Int := x.bmod (2 ^ 64)

/-- The number in an `int`. -/
def int32 (x : Int) : Int := x.bmod (2 ^ 32)

/-- `ofs.write(cur->ptr + diff, len)`: the bytes that are written. -/
def writeBlock (h : Heap) (cur : Option Nat) (diff len : Int) :
    Except FileFault (List UInt8 × Option Nat) :=
  match cur with
  | none => .error (.array .null)
  | some a =>
    match h a with
    | none => .error (.array .freed)
    | some node =>
      if 0 ≤ diff ∧ 0 ≤ len ∧ diff + len ≤ node.size then
        .ok (gather h [⟨a, diff.toNat, len.toNat⟩], node.next)
      else .error .outside

/-- The loop of `toFile`. Every round goes on to the next block, `fuel` counts them. The position
    and the sizes are `size_t` in the two mixed expressions. -/
def toFileLoop (s : ByteArray) : Nat → Option Nat → Int → Int → List UInt8 →
    Except FileFault (List UInt8)
  | fuel, cur, pos, read_size, ofs =>
    if read_size ≤ 0 then .ok ofs
    else match fuel with
    | 0 => .error (.array .stuck)
    | fuel + 1 => do
      let diff := int32 (pos % 2 ^ 64 % s.m_baseSize)
      let len := int64
        ((if int64 s.m_baseSize < read_size then (s.m_baseSize : Int) else read_size) - diff)
      let (bytes, next) ← writeBlock s.heap cur diff len
      toFileLoop s fuel next (int64 (pos + len)) (int64 (read_size - len)) (ofs ++ bytes)

/-- `toFile(name)`: what it returns, and the file. -/
def toFile (s : ByteArray) : Option (List UInt8) → Except FileFault (Bool × Option (List UInt8))
  | none => .ok (false, none)
  | some _ =>
    -- opened with `std::ios::trunc`
    (toFileLoop s (s.fresh + 1) s.m_readPos.cur (int64 s.m_readPos.pos) (int64 s.getReadSize)
      []).map fun ofs => (true, some ofs)

/-- The loop of `fromFile`: `eof` is set by a `read` that finds fewer bytes than it asks for. -/
def fromFileLoop : Nat → List UInt8 → ByteArray → Except Fault ByteArray
  | 0, _, _ => .error .stuck
  | fuel + 1, ifs, s => do
    let s' ← s.write (ifs.take s.m_baseSize)
    if ifs.length < s.m_baseSize then .ok s'
    else fromFileLoop fuel (ifs.drop s.m_baseSize) s'

/-- `fromFile(name)`. Each round that is not the last takes a byte, if blocks hold any. -/
def fromFile (s : ByteArray) : Option (List UInt8) → Except Fault (Bool × ByteArray)
  | none => .ok (false, s)
  | some ifs => (fromFileLoop (ifs.length + 1) ifs s).map fun s => (true, s)

/-! ### What they are to do -/

/-- The file `old` is replaced by the unread bytes. -/
def Stored (s : ByteArray) (old : List UInt8) : Prop :=
  ∃ q, s.toString = .ok (some q) ∧ s.toFile (some old) = .ok (true, some q)

/-- The bytes of the file are the unread bytes of an array with blocks of `B` bytes. -/
def Loaded (B : Nat) (file : List UInt8) : Prop :=
  ∃ s, (new B).fromFile (some file) = .ok (true, s) ∧ s.toString = .ok (some file)

/-- The condition for `toFile`: the unread bytes begin at the start of a block, or there are enough
    of them to fill one; and the integers hold the numbers. -/
def Chunked (s : ByteArray) : Prop :=
  s.getReadSize = 0 ∨
    (s.getReadSize < 2 ^ 63 ∧ s.m_baseSize < 2 ^ 63 ∧ s.m_readPos.pos % s.m_baseSize < 2 ^ 31 ∧
      (s.m_readPos.pos % s.m_baseSize = 0 ∨ s.m_baseSize ≤ s.getReadSize))

section
variable {s : ByteArray} {L : List Nat} {b q : List UInt8} {B n pos i : Nat}

/-! ### Machine integers -/

theorem int64_of_lt {x : Int} (hlow : -2 ^ 63 ≤ x) (hhigh : x < 2 ^ 63) : int64 x = x := by
  rw [int64, Int.bmod_eq_of_le] <;> omega

theorem int64_zero : int64 0 = 0 := int64_of_lt (by decide) (by decide)

theorem int32_of_lt {x : Int} (hlow : -2 ^ 31 ≤ x) (hhigh : x < 2 ^ 31) : int32 x = x := by
  rw [int32, Int.bmod_eq_of_le] <;> omega

/-- The position is taken as an unsigned number. -/
theorem int64_emod (hpos : pos < 2 ^ 64) : int64 pos % 2 ^ 64 = pos := by
  rw [int64, show (2 : Int) ^ 64 = ((2 ^ 64 : Nat) : Int) by rfl, Int.bmod_emod]
  omega

theorem int64_int64_add (x y : Int) : int64 (int64 x + y) = int64 (x + y) := Int.bmod_add_bmod

/-! ### Storing -/

/-- The bytes of a stretch within a block. -/
theorem Blocks.writeBlock {h : Heap} {root : Option Nat} (hb : Blocks h B root L) {len : Nat}
    (hq : Holds h L B pos q) (hi : pos / B < L.length) (hlen : len ≤ q.length)
    (hroom : pos % B + len ≤ B) :
    ByteArray.writeBlock h L[pos / B]? (pos % B : Nat) len =
      .ok (q.take len, L[pos / B + 1]?) := by
  have ha := List.getElem?_eq_getElem hi
  have hcells := cells_singleton (show len ≤ B - pos % B by omega) ha
  obtain ⟨node, hnode, hsize, hnext⟩ := hb.deref ha
  have hbytes := hq.gather hlen hcells
  rw [ha]
  unfold ByteArray.writeBlock
  cases hh : h L[pos / B] with
  | none => simp [ByteArray.deref, hh] at hnode
  | some node' =>
    obtain rfl : node' = node := by simpa [ByteArray.deref, hh] using hnode
    have hok : (0 : Int) ≤ (pos % B : Nat) ∧ (0 : Int) ≤ len ∧
        ((pos % B : Nat) : Int) + len ≤ node'.size := by omega
    simp only [hh, if_pos hok, Int.toNat_natCast, hbytes, hnext]

theorem toFileLoop_done {fuel : Nat} {cur : Option Nat} {ofs : List UInt8} {p m : Int}
    (hm : m ≤ 0) : toFileLoop s fuel cur p m ofs = .ok ofs := by
  unfold toFileLoop
  exact if_pos hm

/-- **One round** over numbers that fit: it takes the rest of the block, or what there is, less the
    offset in the block. -/
theorem toFileLoop_round {m fuel : Nat} (cur : Option Nat) (ofs : List UInt8) (hm : 0 < m)
    (hm' : m < 2 ^ 63) (hB : s.m_baseSize < 2 ^ 63) (hpos : pos < 2 ^ 64)
    (hd : pos % s.m_baseSize < 2 ^ 31) :
    toFileLoop s (fuel + 1) cur (int64 pos) m ofs = (do
      let len : Int := (min m s.m_baseSize : Nat) - (pos % s.m_baseSize : Nat)
      let (bytes, next) ← ByteArray.writeBlock s.heap cur (pos % s.m_baseSize : Nat) len
      toFileLoop s fuel next (int64 (pos + len)) (int64 (m - len)) (ofs ++ bytes)) := by
  have hdiff : int32 (int64 pos % 2 ^ 64 % s.m_baseSize) = (pos % s.m_baseSize : Nat) := by
    rw [int64_emod hpos, ← Int.natCast_emod, int32_of_lt (by omega) (by omega)]
  have hmin : (if int64 s.m_baseSize < m then (s.m_baseSize : Int) else m) =
      (min m s.m_baseSize : Nat) := by
    rw [int64_of_lt (by omega) (by omega)]
    split <;> omega
  have hlen : int64 ((min m s.m_baseSize : Nat) - (pos % s.m_baseSize : Nat)) =
      (min m s.m_baseSize : Nat) - (pos % s.m_baseSize : Nat) := int64_of_lt (by omega) (by omega)
  rw [toFileLoop, if_neg (by omega)]
  simp only [hdiff, hmin, hlen, int64_int64_add]

/-- **From the start of a block on** every round takes a block, and the last one what is left. -/
theorem toFileLoop_aligned (hr : Rep s L) (hB : s.m_baseSize < 2 ^ 63) (fuel : Nat) :
    ∀ {i : Nat} {q : List UInt8} (ofs : List UInt8),
      Holds s.heap L s.m_baseSize (i * s.m_baseSize) q →
      q.length < 2 ^ 63 → i * s.m_baseSize + q.length ≤ s.m_capacity →
      i * s.m_baseSize + q.length < 2 ^ 64 → q.length ≤ fuel * s.m_baseSize →
      toFileLoop s fuel L[i]? (int64 (i * s.m_baseSize : Nat)) q.length ofs = .ok (ofs ++ q) := by
  have hbase := hr.base
  induction fuel with
  | zero =>
    intro i q ofs _ _ _ _ hfuel
    obtain rfl : q = [] := List.length_eq_zero_iff.mp (by omega)
    simp [toFileLoop]
  | succ fuel ih =>
    intro i q ofs hq hn hcap hpos hfuel
    rcases Nat.eq_zero_or_pos q.length with h0 | hlen
    · obtain rfl := List.length_eq_zero_iff.mp h0
      simp [toFileLoop]
    have hdiv : i * s.m_baseSize / s.m_baseSize = i := Nat.mul_div_cancel i hbase
    have hmod : i * s.m_baseSize % s.m_baseSize = 0 := Nat.mul_mod_left i _
    have hi : i * s.m_baseSize / s.m_baseSize < L.length :=
      div_lt_length (by rw [← hr.capacity]; omega)
    have hblock := hr.linked.blocks.writeBlock hq hi
      (Nat.min_le_left q.length s.m_baseSize) (by omega)
    rw [hdiv] at hblock
    have hsize : ((min q.length s.m_baseSize : Nat) : Int) -
        (i * s.m_baseSize % s.m_baseSize : Nat) = (min q.length s.m_baseSize : Nat) := by omega
    rw [toFileLoop_round L[i]? ofs hlen hn hB (by omega) (by omega)]
    simp only [hsize, hblock, bind, Except.bind]
    rcases Nat.lt_or_ge s.m_baseSize q.length with hlt | hge
    · -- a whole block
      have hnext : ((i * s.m_baseSize : Nat) : Int) + (s.m_baseSize : Nat) =
          ((i + 1) * s.m_baseSize : Nat) := by
        rw [Nat.succ_mul]
        omega
      have hdrop := hq.drop s.m_baseSize
      rw [← Nat.succ_mul] at hdrop
      have hlength : (q.drop s.m_baseSize).length = q.length - s.m_baseSize := List.length_drop
      have hrest : int64 ((q.length : Int) - (s.m_baseSize : Nat)) =
          ((q.drop s.m_baseSize).length : Nat) := by
        rw [int64_of_lt (by omega) (by omega)]
        omega
      rw [Nat.succ_mul] at hfuel
      have hrec := ih (ofs ++ q.take s.m_baseSize) hdrop (by omega)
        (by rw [Nat.succ_mul]; omega) (by rw [Nat.succ_mul]; omega) (by omega)
      rw [Nat.min_eq_right (Nat.le_of_lt hlt), hnext, hrest, hrec, List.append_assoc,
        List.take_append_drop]
    · -- the last one
      rw [Nat.min_eq_left hge, Int.sub_self, List.take_length]
      exact toFileLoop_done (Int.le_of_eq int64_zero)

/-- Of the offset or less nothing can be stored: the count is not positive, in this round and in
    those behind it. -/
theorem toFileLoop_ne_ok {m : Nat} (hB : s.m_baseSize ≤ 2 ^ 31) (hbase : 0 < s.m_baseSize)
    (hpos : pos < 2 ^ 64) (hm : 0 < m) (hd : m ≤ pos % s.m_baseSize) (fuel : Nat) :
    ∀ (cur : Option Nat) (ofs x : List UInt8),
      toFileLoop s fuel cur (int64 pos) m ofs ≠ .ok x := by
  have hmod := Nat.mod_lt pos hbase
  induction fuel with
  | zero =>
    intro cur ofs x hrun
    rw [toFileLoop, if_neg (by omega)] at hrun
    cases hrun
  | succ fuel ih =>
    intro cur ofs x hrun
    rw [toFileLoop_round cur ofs hm (by omega) (by omega) hpos (by omega),
      Nat.min_eq_left (by omega)] at hrun
    obtain ⟨⟨bytes, next⟩, hblock, hrun⟩ := bind_eq_ok hrun
    -- the block takes no negative count, and after a count of zero nothing has changed
    have hzero : (m : Int) - (pos % s.m_baseSize : Nat) = 0 := by
      unfold ByteArray.writeBlock at hblock
      split at hblock
      · cases hblock
      · split at hblock
        · cases hblock
        · split at hblock
          · omega
          · cases hblock
    rw [hzero, Int.add_zero, Int.sub_zero, int64_of_lt (x := m) (by omega) (by omega)] at hrun
    exact ih next _ x hrun

/-- **The whole loop**, when the bytes begin at the start of a block or fill one. -/
theorem toFileLoop_ok (hr : Rep s L) (hB : s.m_baseSize < 2 ^ 63)
    (hq : Holds s.heap L s.m_baseSize pos q) (hn : q.length < 2 ^ 63)
    (hcap : pos + q.length ≤ s.m_capacity) (hpos : pos + q.length < 2 ^ 64)
    (hd : pos % s.m_baseSize < 2 ^ 31) (hlen : 0 < q.length)
    (hchunk : pos % s.m_baseSize = 0 ∨ s.m_baseSize ≤ q.length) :
    toFileLoop s (s.fresh + 1) L[pos / s.m_baseSize]? (int64 pos) q.length [] = .ok q := by
  have hfuel := Nat.mul_le_mul_right s.m_baseSize hr.linked.length_le
  rw [← hr.capacity] at hfuel
  have hdm := Nat.div_add_mod pos s.m_baseSize
  rw [Nat.mul_comm] at hdm
  rcases Nat.eq_zero_or_pos (pos % s.m_baseSize) with h0 | hoff
  · rw [h0, Nat.add_zero] at hdm
    rw [← hdm] at hq
    have haligned := toFileLoop_aligned hr hB (s.fresh + 1) [] hq hn (by omega) (by omega)
      (by rw [Nat.succ_mul]; omega)
    rwa [hdm] at haligned
  · -- the rest of the first block, and the others from their start on
    have hfills := hchunk.resolve_left (by omega)
    obtain ⟨k, hk⟩ := Nat.exists_eq_add_of_le (Nat.le_of_lt (Nat.mod_lt pos hr.base))
    have hround : ((min q.length s.m_baseSize : Nat) : Int) - (pos % s.m_baseSize : Nat) =
        (k : Nat) := by omega
    have hblock := hr.linked.blocks.writeBlock hq (div_lt_length (by rw [← hr.capacity]; omega))
      (show k ≤ q.length by omega) (Nat.le_of_eq hk.symm)
    have hend : pos + k = (pos / s.m_baseSize + 1) * s.m_baseSize := by
      rw [Nat.succ_mul]
      omega
    have hlength : (q.drop k).length = q.length - k := List.length_drop
    have hrest : int64 ((q.length : Int) - (k : Nat)) = ((q.drop k).length : Nat) := by
      rw [int64_of_lt (by omega) (by omega)]
      omega
    have hdrop := hq.drop k
    rw [hend] at hdrop
    have hrec := toFileLoop_aligned hr hB s.fresh (q.take k) hdrop (by omega) (by omega)
      (by omega) (by omega)
    rw [toFileLoop_round _ [] hlen hn hB (by omega) hd]
    simp only [hround, hblock, bind, Except.bind, ← Int.natCast_add, hend, hrest,
      List.nil_append, hrec, List.take_append_drop]

/-! ### The condition -/

/-- Under the condition all unread bytes are stored. -/
theorem Written.stored_of_chunked (hw : Written s L b) (hcap : s.m_capacity < 2 ^ 64)
    (hchunked : Chunked s) (old : List UInt8) : Stored s old := by
  have hs := hw.stream
  generalize b.drop s.m_readPos.pos = q at hs
  have hsize := hs.getReadSize
  have hlength := hs.length
  have hwrite := hs.write_le
  refine ⟨q, hs.toString, ?_⟩
  have hloop : toFileLoop s (s.fresh + 1) s.m_readPos.cur (int64 s.m_readPos.pos)
      (int64 s.getReadSize) [] = .ok q := by
    rw [hsize, hs.readCur]
    rcases Nat.eq_zero_or_pos q.length with h0 | hlen
    · rw [h0, Int.natCast_zero, toFileLoop_done (Int.le_of_eq int64_zero),
        List.length_eq_zero_iff.mp h0]
    · unfold Chunked at hchunked
      rw [hsize] at hchunked
      obtain ⟨hn, hB, hd, hchunk⟩ := hchunked.resolve_left (by omega)
      rw [int64_of_lt (x := q.length) (by omega) (by omega)]
      exact toFileLoop_ok hs.toRep hB hs.bytes hn (by omega) (by omega) hd hlen hchunk
  rw [toFile, hloop]
  rfl

/-- Where blocks are not too large all are stored under no other condition. -/
theorem Written.chunked_of_stored (hw : Written s L b) (hcap : s.m_capacity < 2 ^ 64)
    (hB : s.m_baseSize ≤ 2 ^ 31) {old : List UInt8} (hstored : Stored s old) : Chunked s := by
  have hs := hw.stream
  generalize b.drop s.m_readPos.pos = q at hs
  have hsize := hs.getReadSize
  have hlength := hs.length
  have hwrite := hs.write_le
  have hmod := Nat.mod_lt s.m_readPos.pos hs.base
  obtain ⟨q', hq, hfile⟩ := hstored
  obtain rfl : q = q' := Option.some.inj (Except.ok.inj (hs.toString.symm.trans hq))
  have hloop : toFileLoop s (s.fresh + 1) s.m_readPos.cur (int64 s.m_readPos.pos)
      (int64 q.length) [] = .ok q := by
    rw [toFile, hsize] at hfile
    generalize toFileLoop s (s.fresh + 1) s.m_readPos.cur (int64 s.m_readPos.pos)
      (int64 q.length) [] = r at hfile ⊢
    cases r with
    | error e => cases hfile
    | ok ofs =>
      obtain ⟨-, heq⟩ := Prod.mk.inj (Except.ok.inj hfile)
      rw [Option.some.inj heq]
  unfold Chunked
  rw [hsize]
  by_contra hbad
  obtain ⟨hn, hbad⟩ := not_or.mp hbad
  by_cases hlarge : q.length < 2 ^ 63
  · obtain ⟨hoff, hfills⟩ := not_or.mp fun hchunk => hbad ⟨hlarge, by omega, by omega, hchunk⟩
    rw [int64_of_lt (x := q.length) (by omega) (by omega)] at hloop
    rcases Nat.lt_or_ge (s.m_readPos.pos % s.m_baseSize) q.length with hlt | hle
    · -- the first round leaves as many bytes as its offset was, behind a larger offset
      rw [toFileLoop_round _ [] (by omega) hlarge (by omega) (by omega) (by omega),
        Nat.min_eq_left (by omega)] at hloop
      obtain ⟨⟨bytes, next⟩, -, hloop⟩ := bind_eq_ok hloop
      have hdm := Nat.div_add_mod s.m_readPos.pos s.m_baseSize
      have hpos : (s.m_readPos.pos : Int) + (q.length - (s.m_readPos.pos % s.m_baseSize : Nat)) =
          (s.m_baseSize * (s.m_readPos.pos / s.m_baseSize) + q.length : Nat) := by omega
      have hrest : (q.length : Int) - (q.length - (s.m_readPos.pos % s.m_baseSize : Nat)) =
          (s.m_readPos.pos % s.m_baseSize : Nat) := by omega
      have hoffset : (s.m_baseSize * (s.m_readPos.pos / s.m_baseSize) + q.length) % s.m_baseSize =
          q.length := by
        rw [Nat.mul_add_mod, Nat.mod_eq_of_lt (by omega)]
      simp only [hpos, hrest] at hloop
      rw [int64_of_lt (x := (s.m_readPos.pos % s.m_baseSize : Nat)) (by omega) (by omega)] at hloop
      exact toFileLoop_ne_ok hB hs.base (by omega) (by omega) (by omega) _ _ _ _ hloop
    · exact toFileLoop_ne_ok hB hs.base (by omega) (by omega) hle _ _ _ _ hloop
  · -- the size is negative in an `int64_t`
    have hnegative : int64 q.length ≤ 0 := by
      rw [int64, Int.bmod_def, if_neg] <;> omega
    rw [toFileLoop_done hnegative] at hloop
    rw [← Except.ok.inj hloop, List.length_nil] at hn
    exact hn rfl

/-! ### Loading -/

/-- In blocks of no bytes the end of the file is never reached. -/
theorem fromFileLoop_zero (h0 : s.m_baseSize = 0) (fuel : Nat) :
    ∀ (ifs : List UInt8), fromFileLoop fuel ifs s = .error .stuck := by
  induction fuel with
  | zero => intro ifs; rfl
  | succ fuel ih =>
    intro ifs
    have hwrite : s.write (ifs.take 0) = .ok s := rfl
    simp only [fromFileLoop, h0, hwrite, bind, Except.bind, Nat.not_lt_zero, if_false, ih]

/-- A file that is not longer than a block. -/
theorem loaded_of_le (hB : 0 < B) {file : List UInt8} (hfile : file.length ≤ B) :
    Loaded B file := by
  obtain ⟨s, hwrite, hs, -, -, -, hbase⟩ := (stream_new hB).write_fits file
    (show file.length ≤ (new B).getCapacity from hfile)
  have hbase : s.m_baseSize = B := hbase
  refine ⟨s, ?_, hs.toString⟩
  have htake : file.take (new B).m_baseSize = file := List.take_of_length_le hfile
  have hloop : fromFileLoop (file.length + 1) file (new B) = .ok s := by
    rw [fromFileLoop, htake, hwrite]
    rcases Nat.lt_or_ge file.length B with hlt | hge
    · exact if_pos hlt
    · -- the block is full, and the next `read` finds the end
      obtain ⟨fuel, hfuel⟩ := Nat.exists_eq_succ_of_ne_zero (show file.length ≠ 0 by omega)
      have hdrop : file.drop (new B).m_baseSize = [] := List.drop_eq_nil_of_le hfile
      have hempty : s.write [] = .ok s := rfl
      refine (if_neg (not_lt.mpr hge)).trans ?_
      rw [hdrop, hfuel, fromFileLoop, List.take_nil, hempty]
      exact if_pos (by rw [hbase]; exact hB)
  rw [fromFile, hloop]
  rfl

/-- **Loading.** Behind a full block there is none, and `write` follows a null pointer. -/
theorem loaded_iff {file : List UInt8} : Loaded B file ↔ 0 < B ∧ file.length ≤ B := by
  constructor
  case mpr =>
    intro h
    exact loaded_of_le h.1 h.2
  rintro ⟨s, hrun, -⟩
  have hloop : fromFileLoop (file.length + 1) file (new B) = .ok s := by
    rw [fromFile] at hrun
    cases hr : fromFileLoop (file.length + 1) file (new B) with
    | error e =>
      rw [hr] at hrun
      cases hrun
    | ok s' =>
      rw [hr] at hrun
      rw [(Prod.mk.inj (Except.ok.inj hrun)).2]
  rcases Nat.eq_zero_or_pos B with rfl | hB
  · rw [fromFileLoop_zero rfl] at hloop
    cases hloop
  · refine ⟨hB, ?_⟩
    by_contra hlong
    have hlen : (file.take B).length = B := List.length_take_of_le (by omega)
    obtain ⟨s₁, hwrite, hs₁, hfree, -, -, hbase⟩ := (stream_new hB).write_fits (file.take B)
      (show _ ≤ (new B).getCapacity from Nat.le_of_eq hlen)
    have hbase : s₁.m_baseSize = B := hbase
    have hfull : s₁.getCapacity = 0 := by
      rw [hfree, hlen]
      exact Nat.sub_self B
    -- the second `write`
    have hrest : ((file.drop B).take s₁.m_baseSize).length ≠ 0 := by
      rw [List.length_take, List.length_drop, hbase]
      omega
    have hnull := hs₁.toRep.write_null hrest (by
      unfold Roomy
      omega)
    obtain ⟨fuel, hfuel⟩ := Nat.exists_eq_succ_of_ne_zero (show file.length ≠ 0 by omega)
    rw [fromFileLoop] at hloop
    obtain ⟨s₂, hwrite₂, hloop⟩ := bind_eq_ok hloop
    obtain rfl : s₁ = s₂ := Except.ok.inj (hwrite.symm.trans hwrite₂)
    rw [if_neg (show ¬ file.length < (new B).m_baseSize from by
      show ¬ file.length < B
      omega), hfuel, fromFileLoop] at hloop
    obtain ⟨s₃, hwrite₃, -⟩ := bind_eq_ok hloop
    cases hnull.symm.trans hwrite₃

end

/-- **Bytes behind one that has been read.** `toFile` leaves the block with a part of them. -/
theorem toFile_not_stored : ¬ ∀ (B : Nat) (s : ByteArray) (b : List UInt8),
    (history B).Reachable (s, b) → ∀ old, Stored s old := by
  intro h
  obtain ⟨s, hexec, hfile⟩ : ∃ s, (history 16).exec (new 16, [])
      [.call (.op (.write [1, 2, 3])), .call (.op (.read 1))] = some (s, [1, 2, 3]) ∧
        s.toFile (some []) = .error (.array .null) := ⟨_, rfl, by decide⟩
  have hreach := LTS.reachable_of_exec (show (history 16).init (new 16, []) from
    ⟨rfl, by decide, by decide⟩) hexec
  obtain ⟨q, -, hstored⟩ := h 16 s _ hreach []
  cases hfile.symm.trans hstored

/-- **A `ByteArray` and a file.** All unread bytes are stored under the condition, and under no
    other one for blocks of up to `2 ^ 31` bytes; a file is loaded exactly when it is not longer
    than a block. -/
theorem file_iff {B : Nat} {s : ByteArray} {b : List UInt8} (h : (history B).Reachable (s, b))
    (old file : List UInt8) (B' : Nat) :
    (Chunked s → Stored s old) ∧ (s.m_baseSize ≤ 2 ^ 31 → Stored s old → Chunked s) ∧
      (Loaded B' file ↔ 0 < B' ∧ file.length ≤ B') := by
  obtain ⟨⟨L, hw⟩, hcap⟩ := reachable_written h
  exact ⟨fun hchunked => hw.stored_of_chunked hcap hchunked old,
    fun hB hstored => hw.chunked_of_stored hcap hB hstored, loaded_iff⟩

/-- Three bytes in blocks of two, of which one has been read; and a file of one byte. -/
theorem file_iff_two : ∃ s, (history 2).exec (new 2, [])
    [.call (.op (.write [1, 2, 3])), .call (.op (.read 1))] = some (s, [1, 2, 3]) ∧
      Stored s [9] ∧ Chunked s ∧ Loaded 16 [7] := by
  obtain ⟨s, hexec, hbase, hchunked⟩ : ∃ s, (history 2).exec (new 2, [])
      [.call (.op (.write [1, 2, 3])), .call (.op (.read 1))] = some (s, [1, 2, 3]) ∧
        s.m_baseSize = 2 ∧ Chunked s := ⟨_, rfl, rfl, by unfold Chunked; decide⟩
  have hreach := LTS.reachable_of_exec (show (history 2).init (new 2, []) from
    ⟨rfl, by decide, by decide⟩) hexec
  obtain ⟨hstored, hiff, hloaded⟩ := file_iff hreach [9] [7] 16
  have hfile := hstored hchunked
  exact ⟨s, hexec, hfile, hiff (by rw [hbase]; decide) hfile, hloaded.mpr (by decide)⟩

end LimWebserver.ByteArray
