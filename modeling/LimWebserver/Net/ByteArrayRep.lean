import LimWebserver.Lib.Chain
import LimWebserver.Net.ByteArray
import Mathlib.Data.List.Perm.Subperm
import Mathlib.Data.Nat.Basic

namespace LimWebserver.ByteArray

open LimWebserver.Lib

/-!
# Net — the representation of a `ByteArray`

* `Blocks` / `cellAt` — a list of blocks of one size, and the address of each stream position;
* `stretches_ok`, `stretches_null` — the loop over blocks follows the stream, or runs off its end;
* `Holds` — the bytes of the stream, with `Holds.fill` and `Holds.gather` for copying in and out;
* `Rep` — the blocks, the capacity and the cursors of a `ByteArray` fit together;
* `Rep.addCapacity`, `Rep.addCapacity_null` — when growing keeps this, and what happens otherwise;
* `Rep.write`, `Rep.read`, `Rep.clear` — the operations.
-/

/-! ### The list of blocks -/

/-- The pointer to the block behind a block. -/
def nextOf (h : Heap) (a : Nat) : Option Nat := (h a).bind Node.next

/-- From `root` on the heap holds the blocks `L`, all of size `B`. -/
structure Blocks (h : Heap) (B : Nat) (root : Option Nat) (L : List Nat) : Prop where
  nodup : L.Nodup
  chain : Chain (nextOf h) root L none
  size : ∀ a ∈ L, ∃ node, h a = some node ∧ node.size = B

/-- The address of the byte at position `p` of the stream. -/
def cellAt (L : List Nat) (B p : Nat) : Option (Nat × Nat) := L[p / B]?.map fun a => (a, p % B)

section
variable {h : Heap} {B : Nat} {root : Option Nat} {L : List Nat} {i a p len : Nat}

/-- Reading a block of the list. -/
theorem Blocks.deref (hb : Blocks h B root L) (hi : L[i]? = some a) :
    ∃ node, deref h (some a) = .ok node ∧ node.size = B ∧ node.next = L[i + 1]? := by
  obtain ⟨node, hnode, hsize⟩ := hb.size a (List.mem_of_getElem? hi)
  refine ⟨node, by simp [ByteArray.deref, hnode], hsize, ?_⟩
  rw [← hb.chain.next_getElem? hi, nextOf, hnode, Option.bind_some]

/-- Reading a block of the list by its index. -/
theorem Blocks.deref_getElem? (hb : Blocks h B root L) (hi : i < L.length) :
    ∃ node, ByteArray.deref h L[i]? = .ok node ∧ node.size = B ∧ node.next = L[i + 1]? := by
  rw [List.getElem?_eq_getElem hi]
  exact hb.deref (List.getElem?_eq_getElem hi)

theorem div_block_end (hB : 0 < B) (p : Nat) : (p + (B - p % B)) / B = p / B + 1 := by
  have hlt := Nat.mod_lt p hB
  have hdm := Nat.div_add_mod p B
  have : p + (B - p % B) = B * (p / B + 1) := by rw [Nat.mul_add]; omega
  rw [this, Nat.mul_div_cancel_left _ hB]

theorem mod_block_end (hB : 0 < B) (p : Nat) : (p + (B - p % B)) % B = 0 := by
  have hlt := Nat.mod_lt p hB
  have hdm := Nat.div_add_mod p B
  have : p + (B - p % B) = B * (p / B + 1) := by rw [Nat.mul_add]; omega
  rw [this, Nat.mul_mod_right]

theorem div_in_block (hlen : len < B - p % B) : (p + len) / B = p / B := by
  have hB : 0 < B := by omega
  have hdm := Nat.div_add_mod p B
  refine Nat.div_eq_of_lt_le ?_ ?_
  · rw [Nat.mul_comm]; omega
  · rw [Nat.mul_comm, Nat.mul_add]; omega

theorem mod_in_block (hlen : len < B - p % B) : (p + len) % B = p % B + len := by
  have h1 := Nat.div_add_mod (p + len) B
  have h2 := Nat.div_add_mod p B
  rw [div_in_block hlen] at h1
  omega

theorem div_lt_length (hp : p < L.length * B) : p / B < L.length :=
  Nat.div_lt_of_lt_mul (by rwa [Nat.mul_comm])

/-- The addresses of one stretch. -/
theorem cells_singleton (hlen : len ≤ B - p % B) (ha : L[p / B]? = some a) :
    (cells [⟨a, p % B, len⟩]).map some = (List.range' p len).map (cellAt L B) := by
  simp only [cells, List.flatMap_cons, List.flatMap_nil, List.append_nil, List.map_map,
    List.range'_eq_map_range]
  apply List.map_congr_left
  intro j hj
  have hj : j < B - p % B := Nat.lt_of_lt_of_le (List.mem_range.mp hj) hlen
  simp [cellAt, div_in_block hj, mod_in_block hj, ha]

theorem cells_cons (v : IoVec) (iovs : List IoVec) :
    cells (v :: iovs) = cells [v] ++ cells iovs := by
  simp [cells]

/-- **The loop over blocks.** With room for `len` bytes from position `p` on, the stretches are the
    next `len` positions of the stream and the cursor ends at the block of the position behind
    them. -/
theorem stretches_ok (hB : 0 < B) (hb : Blocks h B root L) (fuel : Nat) :
    ∀ p len, len ≤ fuel → p + len ≤ L.length * B →
      ∃ iovs, stretches h fuel L[p / B]? (p % B) (B - p % B) len = .ok (iovs, L[(p + len) / B]?) ∧
        (cells iovs).map some = (List.range' p len).map (cellAt L B) := by
  induction fuel with
  | zero =>
    intro p len hfuel _
    obtain rfl : len = 0 := by omega
    exact ⟨[], by simp [stretches], rfl⟩
  | succ fuel ih =>
    intro p len hfuel hroom
    rcases eq_or_ne len 0 with rfl | hpos
    · exact ⟨[], by simp [stretches], rfl⟩
    have hmod := Nat.mod_lt p hB
    have hi : p / B < L.length := div_lt_length (by omega)
    have ha := List.getElem?_eq_getElem hi
    obtain ⟨node, hnode, hsize, hnext⟩ := hb.deref ha
    rw [ha]
    by_cases hlen : len ≤ B - p % B
    · -- the last stretch
      refine ⟨_, ?_, cells_singleton hlen ha⟩
      simp only [stretches, hpos, if_false, hnode, bind, Except.bind, hlen, if_true, hsize]
      split
      · rename_i hend
        rw [hnext, show len = B - p % B by omega, div_block_end hB]
      · rw [div_in_block (by omega), ha]
    · -- the rest of this block, and on to the next one
      have hp : (p + (B - p % B)) / B = p / B + 1 := div_block_end hB p
      have hi' : p / B + 1 < L.length := by
        rw [← hp]
        exact div_lt_length (by omega)
      obtain ⟨next, hderef, hsize', -⟩ := hb.deref_getElem? hi'
      obtain ⟨iovs, hrec, hcells⟩ :=
        ih (p + (B - p % B)) (len - (B - p % B)) (by omega) (by omega)
      rw [hp, mod_block_end hB, Nat.sub_zero,
        show p + (B - p % B) + (len - (B - p % B)) = p + len by omega] at hrec
      refine ⟨⟨L[p / B], p % B, B - p % B⟩ :: iovs, ?_, ?_⟩
      · simp only [stretches, hpos, if_false, hnode, bind, Except.bind, hlen, hnext, hderef,
          hsize', hrec]
      · rw [cells_cons, List.map_append, cells_singleton le_rfl ha, hcells, ← List.map_append,
          List.range'_append_1, show B - p % B + (len - (B - p % B)) = len by omega]

/-- Without that room the loop runs off the end of the list. -/
theorem stretches_null (hB : 0 < B) (hb : Blocks h B root L) (fuel : Nat) :
    ∀ p len, len ≤ fuel → p < L.length * B → L.length * B < p + len →
      stretches h fuel L[p / B]? (p % B) (B - p % B) len = .error .null := by
  induction fuel with
  | zero => intro p len _ _ _; omega
  | succ fuel ih =>
    intro p len hfuel hp hroom
    have hmod := Nat.mod_lt p hB
    have hi : p / B < L.length := div_lt_length hp
    have ha := List.getElem?_eq_getElem hi
    obtain ⟨node, hnode, hsize, hnext⟩ := hb.deref ha
    have hend : p + (B - p % B) ≤ L.length * B := by
      have := Nat.mul_le_mul_right B (Nat.succ_le_of_lt hi)
      have hdm := Nat.div_add_mod p B
      rw [Nat.succ_mul, Nat.mul_comm] at this
      omega
    rw [ha]
    simp only [stretches, show len ≠ 0 by omega, if_false, hnode, bind, Except.bind,
      show ¬ len ≤ B - p % B by omega, hnext]
    rw [← div_block_end hB p]
    rcases Nat.lt_or_ge (p + (B - p % B)) (L.length * B) with hlt | hge
    · -- there is a next block, and the room is too small from there on as well
      obtain ⟨next, hderef, hsize', -⟩ := hb.deref_getElem? (div_lt_length hlt)
      have hrec := ih (p + (B - p % B)) (len - (B - p % B)) (by omega) hlt (by omega)
      rw [mod_block_end hB, Nat.sub_zero] at hrec
      simp only [hderef, hsize', hrec]
    · -- this was the last block
      have hnone : L[(p + (B - p % B)) / B]? = none := by
        rw [List.getElem?_eq_none_iff, show p + (B - p % B) = L.length * B by omega,
          Nat.mul_div_cancel _ hB]
      simp [hnone, ByteArray.deref]

/-! ### The bytes -/

/-- The byte at position `p` of the stream. -/
def content (h : Heap) (L : List Nat) (B p : Nat) : Option UInt8 := (cellAt L B p).bind (byteAt h)

/-- From position `r` on the stream holds the bytes `q`. -/
def Holds (h : Heap) (L : List Nat) (B r : Nat) (q : List UInt8) : Prop :=
  (List.range' r q.length).map (content h L B) = q.map some

/-- Different positions have different addresses. -/
theorem cellAt_inj (hnd : L.Nodup) {p' : Nat} {c : Nat × Nat} (hp : cellAt L B p = some c)
    (hp' : cellAt L B p' = some c) : p = p' := by
  simp only [cellAt, Option.map_eq_some_iff] at hp hp'
  obtain ⟨a, ha, rfl⟩ := hp
  obtain ⟨a', ha', heq⟩ := hp'
  obtain ⟨rfl, hmod⟩ := Prod.mk.inj heq
  have hdiv := (List.getElem?_inj (List.getElem?_eq_some_iff.mp ha).1 hnd).mp (ha.trans ha'.symm)
  rw [← Nat.div_add_mod p B, ← Nat.div_add_mod p' B, hdiv, hmod]

/-- Writing a byte into a block in use. -/
theorem byteAt_setByte {c c' : Nat × Nat} (b : UInt8) (hc : (h c.1).isSome) :
    byteAt (setByte h c b) c' = if c' = c then some b else byteAt h c' := by
  obtain ⟨node, hnode⟩ := Option.isSome_iff_exists.mp hc
  obtain ⟨a, o⟩ := c
  obtain ⟨a', o'⟩ := c'
  simp only [setByte, hnode, byteAt]
  rcases eq_or_ne a' a with rfl | hne
  · rw [Function.update_self]
    rcases eq_or_ne o' o with rfl | hne'
    · simp
    · simp [hne', hnode]
  · simp [hne]

/-- Bytes are no part of the shape of the list. -/
theorem Blocks.setByte (hb : Blocks h B root L) (c : Nat × Nat) (b : UInt8) :
    Blocks (ByteArray.setByte h c b) B root L := by
  have hblock : ∀ a node, h a = some node → ∃ node', ByteArray.setByte h c b a = some node' ∧
      node'.next = node.next ∧ node'.size = node.size := by
    intro a node ha
    unfold ByteArray.setByte
    cases hc : h c.1 with
    | none => exact ⟨node, ha, rfl, rfl⟩
    | some node' =>
      rcases eq_or_ne a c.1 with rfl | hne
      · rw [hc, Option.some.injEq] at ha
        exact ⟨_, Function.update_self .., by simp [ha], by simp [ha]⟩
      · exact ⟨node, by simp [Function.update_of_ne hne, ha], rfl, rfl⟩
  -- links and sizes are those of before
  refine ⟨hb.nodup, hb.chain.frame fun a ha => ?_, fun a ha => ?_⟩
  · obtain ⟨node, hnode, -⟩ := hb.size a ha
    obtain ⟨node', hnode', hnext, -⟩ := hblock a node hnode
    rw [nextOf, nextOf, hnode, hnode', Option.bind_some, Option.bind_some, hnext]
  · obtain ⟨node, hnode, hsize⟩ := hb.size a ha
    obtain ⟨node', hnode', -, hsize'⟩ := hblock a node hnode
    exact ⟨node', hnode', hsize'.trans hsize⟩

variable {r : Nat} {q : List UInt8}

/-- The byte behind those that the stream holds. -/
theorem Holds.snoc (hb : Blocks h B root L) (hq : Holds h L B r q) {c : Nat × Nat}
    (hc : cellAt L B (r + q.length) = some c) (b : UInt8) :
    Holds (ByteArray.setByte h c b) L B r (q ++ [b]) := by
  have hsome : (h c.1).isSome := by
    simp only [cellAt, Option.map_eq_some_iff] at hc
    obtain ⟨a, ha, rfl⟩ := hc
    obtain ⟨node, hnode, -⟩ := hb.size a (List.mem_of_getElem? ha)
    simp [hnode]
  -- the bytes before it have other addresses
  have hold : ∀ p ∈ List.range' r q.length,
      content (ByteArray.setByte h c b) L B p = content h L B p := by
    intro p hp
    have hlt := (List.mem_range'_1.mp hp).2
    unfold content
    cases hp' : cellAt L B p with
    | none => rfl
    | some c' =>
      have hne : c' ≠ c := by
        rintro rfl
        have := cellAt_inj hb.nodup hp' hc
        omega
      simp [byteAt_setByte b hsome, hne]
  unfold Holds
  rw [List.length_append, List.length_singleton, ← List.range'_append_1, List.map_append,
    List.map_congr_left hold, hq, List.map_append]
  simp [content, hc, byteAt_setByte b hsome]

/-- **Copying in.** Filling addresses behind the bytes that the stream holds. -/
theorem Holds.foldl_setByte {r : Nat} (buf : List UInt8) : ∀ {h : Heap} {q : List UInt8}
    {cs : List (Nat × Nat)}, Blocks h B root L → Holds h L B r q →
    cs.map some = (List.range' (r + q.length) cs.length).map (cellAt L B) →
    buf.length ≤ cs.length →
    Blocks ((cs.zip buf).foldl (fun h cb => ByteArray.setByte h cb.1 cb.2) h) B root L ∧
    Holds ((cs.zip buf).foldl (fun h cb => ByteArray.setByte h cb.1 cb.2) h) L B r (q ++ buf) := by
  induction buf with
  | nil =>
    intro h q cs hb hq _ _
    simpa using ⟨hb, hq⟩
  | cons b buf ih =>
    -- the stream grows by one byte in each round
    intro h q cs hb hq hcs hlen
    cases cs with
    | nil => simp at hlen
    | cons c cs =>
      rw [List.map_cons, List.length_cons, List.range'_succ, List.map_cons,
        List.cons.injEq] at hcs
      obtain ⟨hc, hcs⟩ := hcs
      have hstep := ih (hb.setByte c b) (hq.snoc hb hc.symm b)
        (by rw [hcs, List.length_append, List.length_singleton, Nat.add_assoc])
        (by simpa using hlen)
      rw [List.append_assoc] at hstep
      exact hstep

/-- Copying into stretches. -/
theorem Holds.fill (hb : Blocks h B root L) (hq : Holds h L B r q) {iovs : List IoVec}
    (hcells : (cells iovs).map some = (List.range' (r + q.length) len).map (cellAt L B))
    {buf : List UInt8} (hlen : buf.length ≤ len) :
    Blocks (ByteArray.fill h iovs buf) B root L ∧
      Holds (ByteArray.fill h iovs buf) L B r (q ++ buf) := by
  have hlength : (cells iovs).length = len := by simpa using congrArg List.length hcells
  rw [← hlength] at hcells hlen
  exact Holds.foldl_setByte buf hb hq hcells hlen

/-- The first of the bytes. -/
theorem Holds.take (hq : Holds h L B r q) {n : Nat} (hn : n ≤ q.length) :
    Holds h L B r (q.take n) := by
  unfold Holds at *
  rw [List.map_take, ← hq, ← List.map_take, List.length_take, Nat.min_eq_left hn,
    List.take_range'_of_length_ge hn]

/-- All but the first of the bytes. -/
theorem Holds.drop (hq : Holds h L B r q) (n : Nat) : Holds h L B (r + n) (q.drop n) := by
  unfold Holds at *
  rw [List.map_drop, ← hq, ← List.map_drop, List.length_drop, List.drop_range', Nat.mul_one]

/-- The bytes at the addresses of some positions. -/
theorem map_byteAt {cs : List (Nat × Nat)} {n : Nat}
    (hcells : cs.map some = (List.range' r n).map (cellAt L B)) :
    cs.map (byteAt h) = (List.range' r n).map (content h L B) := by
  have hbytes := congrArg (List.map fun c => c.bind (byteAt h)) hcells
  rw [List.map_map, List.map_map] at hbytes
  exact hbytes

/-- **Copying out.** The stretches behind position `r` yield the bytes that the stream holds
    there. -/
theorem Holds.gather (hq : Holds h L B r q) {iovs : List IoVec} {n : Nat} (hn : n ≤ q.length)
    (hcells : (cells iovs).map some = (List.range' r n).map (cellAt L B)) :
    ByteArray.gather h iovs = q.take n := by
  have hmap : (cells iovs).map (byteAt h) = (q.take n).map some := by
    have htake := hq.take hn
    rw [Holds, List.length_take, Nat.min_eq_left hn] at htake
    exact (map_byteAt hcells).trans htake
  have hfilter : (cells iovs).filterMap (byteAt h) =
      ((cells iovs).map (byteAt h)).filterMap id := by
    rw [List.filterMap_map, Function.id_comp]
  rw [ByteArray.gather, hfilter, hmap, List.filterMap_map, Function.id_comp, List.filterMap_some]

/-! ### New blocks -/

/-- From `m_root` on the heap holds the blocks `L`, and the pointer of the last one is `q`. -/
structure Linked (s : ByteArray) (L : List Nat) (q : Option Nat) : Prop where
  nodup : L.Nodup
  chain : Chain (nextOf s.heap) s.m_root L q
  size : ∀ a ∈ L, ∃ node, s.heap a = some node ∧ node.size = s.m_baseSize
  fresh : ∀ a ∈ L, a < s.fresh

theorem Linked.blocks {s : ByteArray} (hl : Linked s L none) :
    Blocks s.heap s.m_baseSize s.m_root L := ⟨hl.nodup, hl.chain, hl.size⟩

/-- There are no more blocks than have been allocated. -/
theorem Linked.length_le {s : ByteArray} {q : Option Nat} (hl : Linked s L q) :
    L.length ≤ s.fresh := by
  have hsub : L ⊆ List.range s.fresh := fun a ha => List.mem_range.mpr (hl.fresh a ha)
  simpa using (hl.nodup.subperm hsub).length_le

/-- One round of the loop of `addCapacity`: a new block behind the block `a`. -/
def linkBlock (s : ByteArray) (a : Nat) (node : Node) : ByteArray :=
  { s with
    heap := Function.update (Function.update s.heap s.fresh
      (some ⟨fun _ => 0, none, s.m_baseSize⟩)) a (some { node with next := some s.fresh })
    fresh := s.fresh + 1
    m_capacity := s.m_capacity + s.m_baseSize }

/-- The list after one round. -/
theorem Linked.link {s : ByteArray} {M : List Nat} {q : Option Nat} {node : Node}
    (hl : Linked s (M ++ [a]) q) (hnode : s.heap a = some node) :
    Linked (s.linkBlock a node) (M ++ [a] ++ [s.fresh]) none ∧
      ∀ x ∈ M ++ [a], ∀ o, byteAt (s.linkBlock a node).heap (x, o) = byteAt s.heap (x, o) := by
  have hnew : s.fresh ∉ M ++ [a] := fun hin => absurd (hl.fresh _ hin) (lt_irrefl _)
  have hne : s.fresh ≠ a := by rintro hfa; exact hnew (by simp [hfa])
  have hself : (s.linkBlock a node).heap a = some { node with next := some s.fresh } :=
    Function.update_self ..
  have hfresh : (s.linkBlock a node).heap s.fresh = some ⟨fun _ => 0, none, s.m_baseSize⟩ := by
    simp [linkBlock, hne]
  have hother : ∀ x, x ≠ a → x ≠ s.fresh → (s.linkBlock a node).heap x = s.heap x :=
    fun x hxa hxf => by simp [linkBlock, hxa, hxf]
  have hold : ∀ x ∈ M ++ [a], x ≠ s.fresh := by rintro x hx rfl; exact hnew hx
  -- of the links only those of `a` and of the new block are written
  have hnext : nextOf (s.linkBlock a node).heap =
      Function.update (Function.update (nextOf s.heap) s.fresh none) a (some s.fresh) := by
    funext x
    rcases eq_or_ne x a with rfl | hxa
    · simp [nextOf, hself]
    · rcases eq_or_ne x s.fresh with rfl | hxf
      · simp [nextOf, hfresh, hxa]
      · simp [nextOf, hother x hxa hxf, hxa, hxf]
  refine ⟨⟨?_, ?_, ?_, ?_⟩, ?_⟩
  · refine List.nodup_append.mpr ⟨hl.nodup, by simp, ?_⟩
    rintro x hx y hy rfl
    exact hold x hx (List.mem_singleton.mp hy)
  · rw [hnext]
    exact hl.chain.snoc hl.nodup hnew
  · intro x hx
    rcases List.mem_append.mp hx with hx | hx
    · obtain ⟨node', hnode', hsize⟩ := hl.size x hx
      rcases eq_or_ne x a with rfl | hxa
      · rw [hnode, Option.some.injEq] at hnode'
        exact ⟨_, hself, hnode' ▸ hsize⟩
      · exact ⟨node', (hother x hxa (hold x hx)).trans hnode', hsize⟩
    · rw [List.mem_singleton] at hx
      exact ⟨_, hx ▸ hfresh, rfl⟩
  · intro x hx
    rcases List.mem_append.mp hx with hx | hx
    · exact Nat.lt_succ_of_lt (hl.fresh x hx)
    · rw [List.mem_singleton] at hx
      exact hx ▸ Nat.lt_succ_self _
  · intro x hx o
    rcases eq_or_ne x a with rfl | hxa
    · simp [byteAt, hself, hnode]
    · simp [byteAt, hother x hxa (hold x hx)]

/-- The loop of `addCapacity`: the blocks up to `a` stay, and `count` new ones follow them. -/
theorem appendBlocks_ok (count : Nat) : ∀ {s : ByteArray} {M : List Nat} {a : Nat}
    {q : Option Nat} (first : Option Nat), Linked s (M ++ [a]) q → (count = 0 → q = none) →
    ∃ first' heap, appendBlocks count (some a) first s = .ok (first',
        { s with heap, fresh := s.fresh + count,
                 m_capacity := s.m_capacity + count * s.m_baseSize }) ∧
      Linked { s with heap, fresh := s.fresh + count }
        (M ++ [a] ++ List.range' s.fresh count) none ∧
      ∀ x ∈ M ++ [a], ∀ o, byteAt heap (x, o) = byteAt s.heap (x, o) := by
  induction count with
  | zero =>
    intro s M a q first hl hq
    obtain rfl := hq rfl
    exact ⟨first, s.heap, by simp [appendBlocks], by simpa using hl, fun _ _ _ => rfl⟩
  | succ count ih =>
    intro s M a q first hl _
    -- one round links a block behind `a`, whatever came behind it before
    obtain ⟨node, hnode, -⟩ := hl.size a (by simp)
    obtain ⟨hl', hbytes⟩ := hl.link hnode
    obtain ⟨first', heap, hrun, hlinked, hbytes'⟩ :=
      ih (first.or (some s.fresh)) hl' fun _ => rfl
    refine ⟨first', heap, ?_, ?_, fun x hx o => ?_⟩
    · simp only [appendBlocks, deref, hnode, bind, Except.bind]
      apply hrun.trans
      simp only [linkBlock, Nat.add_assoc, Nat.add_comm 1 count, Nat.add_mul, Nat.one_mul,
        Nat.add_comm s.m_baseSize]
    · rw [List.append_assoc (M ++ [a]), List.singleton_append, linkBlock, ← List.range'_succ,
        Nat.add_assoc, Nat.add_comm 1 count] at hlinked
      exact ⟨hlinked.nodup, hlinked.chain, hlinked.size, hlinked.fresh⟩
    · rw [hbytes' x (List.mem_append_left _ hx), hbytes x hx]

/-! ### The representation -/

/-- The blocks are linked, they make up `m_capacity`, and each cursor is at the block of its
    position, or null at the end of the last block. -/
structure Rep (s : ByteArray) (L : List Nat) : Prop where
  base : 0 < s.m_baseSize
  nonempty : L ≠ []
  linked : Linked s L none
  capacity : s.m_capacity = L.length * s.m_baseSize
  write_le : s.m_writePos.pos ≤ s.m_capacity
  read_le : s.m_readPos.pos ≤ s.m_writePos.pos
  writeCur : s.m_writePos.cur = L[s.m_writePos.pos / s.m_baseSize]?
  readCur : s.m_readPos.cur = L[s.m_readPos.pos / s.m_baseSize]?

variable {s : ByteArray} {n : Nat}

theorem rep_new (hB : 0 < B) : Rep (new B) [0] := by
  refine ⟨hB, by simp, ⟨by simp, ?_, ?_, by simp [new]⟩, by simp [new], by simp [new],
    by simp [new],
    by simp [new], by simp [new]⟩
  · simp [new, nextOf]
  · simp [new]

/-- The loop over blocks from a cursor on. -/
theorem Rep.stretchesFrom (hr : Rep s L) {p : Pointer} (hcur : p.cur = L[p.pos / s.m_baseSize]?)
    (hp : p.pos < s.m_capacity) (hroom : p.pos + n ≤ s.m_capacity) :
    ∃ iovs, s.stretchesFrom p n = .ok (iovs, L[(p.pos + n) / s.m_baseSize]?) ∧
      (cells iovs).map some = (List.range' p.pos n).map (cellAt L s.m_baseSize) := by
  rw [hr.capacity] at hp hroom
  obtain ⟨node, hnode, hsize, -⟩ := hr.linked.blocks.deref_getElem? (div_lt_length hp)
  obtain ⟨iovs, hrun, hcells⟩ := stretches_ok hr.base hr.linked.blocks n p.pos n le_rfl hroom
  refine ⟨iovs, ?_, hcells⟩
  simp only [ByteArray.stretchesFrom, hcur, hnode, bind, Except.bind, hsize, hrun]

/-- Beyond the last block the loop meets a null pointer. -/
theorem Rep.stretchesFrom_null (hr : Rep s L) {p : Pointer}
    (hcur : p.cur = L[p.pos / s.m_baseSize]?) (hp : p.pos < s.m_capacity)
    (hroom : s.m_capacity < p.pos + n) : s.stretchesFrom p n = .error .null := by
  rw [hr.capacity] at hp hroom
  obtain ⟨node, hnode, hsize, -⟩ := hr.linked.blocks.deref_getElem? (div_lt_length hp)
  have hnull := stretches_null hr.base hr.linked.blocks n p.pos n le_rfl hp hroom
  simp only [ByteArray.stretchesFrom, hcur, hnode, bind, Except.bind, hsize, hnull]

/-- `addCapacity` within the capacity. -/
theorem addCapacity_of_le (h : n ≤ s.getCapacity) : s.addCapacity n = .ok s := by
  unfold addCapacity
  split
  · rfl
  · simp [h]

/-- When `addCapacity` needs new blocks, it needs the right number of them. -/
theorem count_spec (hB : 0 < B) {m : Nat} (hm : 0 < m) :
    m ≤ (m + B - 1) / B * B ∧ (m + B - 1) / B * B < m + B ∧ (m + B - 1) / B ≠ 0 := by
  have hdm := Nat.div_add_mod (m + B - 1) B
  have hmod := Nat.mod_lt (m + B - 1) hB
  rw [Nat.mul_comm]
  refine ⟨by omega, by omega, fun h0 => ?_⟩
  rw [h0] at hdm
  omega

/-- The index of the block at the write cursor. -/
theorem Rep.writeBlock (hr : Rep s L) (hpos : 0 < s.getCapacity) :
    s.m_writePos.pos / s.m_baseSize < L.length := by
  apply div_lt_length
  rw [← hr.capacity]
  unfold getCapacity at hpos
  omega

/-- Some prefix of the blocks is linked, too. -/
theorem Linked.take (hl : Linked s L none) (n : Nat) : ∃ q, Linked s (L.take n) q := by
  obtain ⟨q, hq⟩ := hl.chain.take n
  exact ⟨q, hl.nodup.sublist (List.take_sublist n L), hq,
    fun a ha => hl.size a (List.mem_of_mem_take ha),
    fun a ha => hl.fresh a (List.mem_of_mem_take ha)⟩

/-- `addCapacity` with a block at the write cursor: new blocks are linked behind *that* block. -/
theorem Rep.addCapacity_run (hr : Rep s L) (hn : s.getCapacity < n) (hpos : 0 < s.getCapacity) :
    ∃ count heap, s.addCapacity n = .ok
        { s with heap, fresh := s.fresh + count,
                 m_capacity := s.m_capacity + count * s.m_baseSize } ∧
      Linked { s with heap, fresh := s.fresh + count }
        (L.take (s.m_writePos.pos / s.m_baseSize + 1) ++ List.range' s.fresh count) none ∧
      n ≤ s.getCapacity + count * s.m_baseSize ∧
      s.getCapacity + count * s.m_baseSize < n + s.m_baseSize ∧
      ∀ x ∈ L.take (s.m_writePos.pos / s.m_baseSize + 1), ∀ o,
        byteAt heap (x, o) = byteAt s.heap (x, o) := by
  have hi := hr.writeBlock hpos
  have hcur : s.m_writePos.cur = some L[s.m_writePos.pos / s.m_baseSize] := by
    rw [hr.writeCur, List.getElem?_eq_getElem hi]
  have htake := List.take_append_getElem hi
  obtain ⟨hcount, hcount', hne⟩ := count_spec hr.base (show 0 < n - s.getCapacity by omega)
  obtain ⟨q, hl⟩ := hr.linked.take (s.m_writePos.pos / s.m_baseSize + 1)
  rw [← htake] at hl ⊢
  obtain ⟨first, heap, hrun, hlinked, hbytes⟩ := appendBlocks_ok
    ((n - s.getCapacity + s.m_baseSize - 1) / s.m_baseSize) none hl
    fun h => absurd h hne
  refine ⟨_, heap, ?_, hlinked, by omega, by omega, hbytes⟩
  unfold ByteArray.addCapacity
  simp only [show n ≠ 0 by omega, if_false, show ¬ n ≤ s.getCapacity by omega, hcur, bind,
    Except.bind, hrun, show s.getCapacity ≠ 0 by omega]

/-- **Growing.** With room left in the last block only, or with enough room, `addCapacity` keeps
    the representation. -/
theorem Rep.addCapacity (hr : Rep s L)
    (hok : n ≤ s.getCapacity ∨ (0 < s.getCapacity ∧ s.getCapacity ≤ s.m_baseSize)) :
    ∃ s' new, s.addCapacity n = .ok s' ∧ Rep s' (L ++ new) ∧ s'.m_baseSize = s.m_baseSize ∧
      s'.m_writePos = s.m_writePos ∧ s'.m_readPos = s.m_readPos ∧ n ≤ s'.getCapacity ∧
      (s' = s ∨ s'.getCapacity < n + s.m_baseSize) ∧
      ∀ r q, Holds s.heap L s.m_baseSize r q → r + q.length ≤ s.m_capacity →
        Holds s'.heap (L ++ new) s.m_baseSize r q := by
  by_cases hn : n ≤ s.getCapacity
  · -- nothing to do
    refine ⟨s, [], addCapacity_of_le hn, by simpa using hr, rfl, rfl, rfl, hn, .inl rfl, ?_⟩
    rw [List.append_nil]
    exact fun _ _ hq _ => hq
  · obtain ⟨hpos, hlast⟩ := hok.resolve_left hn
    obtain ⟨count, heap, hrun, hlinked, hge, hlt, hbytes⟩ :=
      hr.addCapacity_run (show s.getCapacity < n by omega) hpos
    have hi := hr.writeBlock hpos
    have hcap := hr.capacity
    have hwrite := hr.write_le
    unfold getCapacity at hpos hlast hge hlt
    -- the write cursor is in the last block
    have hlastBlock : s.m_writePos.pos / s.m_baseSize + 1 = L.length := by
      have h1 : (L.length - 1) * s.m_baseSize ≤ s.m_writePos.pos := by
        rw [Nat.sub_mul, Nat.one_mul]; omega
      have h2 := (Nat.le_div_iff_mul_le hr.base).mpr h1
      omega
    rw [hlastBlock, List.take_length] at hlinked hbytes
    have hgetElem : ∀ p, p < s.m_capacity →
        (L ++ List.range' s.fresh count)[p / s.m_baseSize]? = L[p / s.m_baseSize]? := fun p hp =>
      List.getElem?_append_left (div_lt_length (hcap ▸ hp))
    have hread := hr.read_le
    refine ⟨_, List.range' s.fresh count, hrun, ⟨hr.base, by simp [hr.nonempty], ⟨hlinked.nodup,
      hlinked.chain, hlinked.size, hlinked.fresh⟩, ?_, ?_, hread, ?_, ?_⟩, rfl, rfl, rfl, ?_,
      .inr ?_,
      fun r q hq hlen => ?_⟩
    · simp only [List.length_append, List.length_range', Nat.add_mul, hcap]
    · simp only; omega
    · simp only [hgetElem _ (show s.m_writePos.pos < s.m_capacity by omega), hr.writeCur]
    · simp only [hgetElem _ (show s.m_readPos.pos < s.m_capacity by omega), hr.readCur]
    · simp only [getCapacity]; omega
    · simp only [getCapacity]; omega
    · -- the bytes lie in old blocks
      rw [Holds, ← hq]
      apply List.map_congr_left
      intro p hp
      have hp := (List.mem_range'_1.mp hp).2
      have hpc : p < s.m_capacity := by omega
      have hlt := div_lt_length (hcap ▸ hpc)
      simp only [content, cellAt, hgetElem p hpc, List.getElem?_eq_getElem hlt, Option.map_some,
        Option.bind_some]
      exact hbytes _ (List.getElem_mem hlt) _

/-- **Growing elsewhere.** With the capacity used up, or with more than the last block left,
    `addCapacity` breaks the list, and the loop that follows it meets a null pointer. -/
theorem Rep.addCapacity_null (hr : Rep s L) (hn : s.getCapacity < n)
    (hbad : s.getCapacity = 0 ∨ s.m_baseSize < s.getCapacity) :
    s.addCapacity n = .error .null ∨ ∃ s₁, s.addCapacity n = .ok s₁ ∧
      s₁.stretchesFrom s₁.m_writePos n = .error .null := by
  have hcap := hr.capacity
  have hwrite := hr.write_le
  rcases hbad with hfull | hmore
  · -- the cursor is null, and the first new block has no place
    have hw : s.m_writePos.pos = L.length * s.m_baseSize := by
      unfold getCapacity at hfull
      omega
    have hcur : s.m_writePos.cur = none := by
      rw [hr.writeCur, hw, Nat.mul_div_cancel _ hr.base, List.getElem?_eq_none le_rfl]
    obtain ⟨-, -, hne⟩ := count_spec hr.base (show 0 < n - s.getCapacity by omega)
    obtain ⟨count, hcount⟩ := Nat.exists_eq_succ_of_ne_zero hne
    left
    simp only [ByteArray.addCapacity, show n ≠ 0 by omega, if_false,
      show ¬ n ≤ s.getCapacity by omega, hcount, hcur, appendBlocks, ByteArray.deref, bind,
      Except.bind]
  · -- the blocks behind the cursor are lost, and the new ones are too few
    obtain ⟨count, heap, hrun, hlinked, -, hlt, -⟩ :=
      hr.addCapacity_run hn (Nat.zero_lt_of_lt hmore)
    have hi := hr.writeBlock (Nat.zero_lt_of_lt hmore)
    unfold getCapacity at hlt hmore
    -- the cursor is before the last block
    have hi' : s.m_writePos.pos / s.m_baseSize + 2 ≤ L.length := by
      have h1 := Nat.div_mul_le_self s.m_writePos.pos s.m_baseSize
      by_contra hc
      have h2 : s.m_writePos.pos / s.m_baseSize + 1 = L.length := by omega
      rw [← h2, Nat.add_mul, Nat.one_mul] at hcap
      omega
    generalize hM : L.take (s.m_writePos.pos / s.m_baseSize + 1) ++ List.range' s.fresh count = M
      at hlinked
    have hlen : M.length = s.m_writePos.pos / s.m_baseSize + 1 + count := by
      rw [← hM, List.length_append, List.length_take, List.length_range',
        Nat.min_eq_left (by omega)]
    have hcur : s.m_writePos.cur = M[s.m_writePos.pos / s.m_baseSize]? := by
      rw [hr.writeCur, ← hM, List.getElem?_append_left (by simp; omega),
        List.getElem?_take_of_lt (Nat.lt_succ_self _)]
    -- the new list ends before the `n` bytes do
    have hM' : M.length * s.m_baseSize =
        s.m_writePos.pos / s.m_baseSize * s.m_baseSize + s.m_baseSize + count * s.m_baseSize := by
      rw [hlen, Nat.add_mul, Nat.add_mul, Nat.one_mul]
    have hmul := Nat.mul_le_mul_right s.m_baseSize hi'
    rw [Nat.add_mul, ← hcap, Nat.two_mul] at hmul
    have hdm := Nat.div_add_mod s.m_writePos.pos s.m_baseSize
    have hmod := Nat.mod_lt s.m_writePos.pos hr.base
    rw [Nat.mul_comm] at hdm
    have hp : s.m_writePos.pos < M.length * s.m_baseSize := by omega
    obtain ⟨node, hnode, hsize, -⟩ := hlinked.blocks.deref_getElem? (div_lt_length hp)
    refine .inr ⟨_, hrun, ?_⟩
    simp only [bind, Except.bind, ByteArray.stretchesFrom, hcur]
    rw [hnode]
    simp only [hsize]
    exact stretches_null hr.base hlinked.blocks n _ n le_rfl hp (by omega)

/-! ### The operations -/

/-- A `ByteArray` whose unread bytes are `q`. -/
structure Stream (s : ByteArray) (L : List Nat) (q : List UInt8) : Prop extends Rep s L where
  bytes : Holds s.heap L s.m_baseSize s.m_readPos.pos q
  length : s.m_readPos.pos + q.length = s.m_writePos.pos

/-- The condition under which `n` bytes can be reserved: they fit, or the room that is left is in
    the last block only. -/
def Roomy (s : ByteArray) (n : Nat) : Prop :=
  n ≤ s.getCapacity ∨ (0 < s.getCapacity ∧ s.getCapacity ≤ s.m_baseSize)

instance (s : ByteArray) (n : Nat) : Decidable (s.Roomy n) := inferInstanceAs (Decidable (_ ∨ _))

theorem stream_new (hB : 0 < B) : Stream (new B) [0] [] := ⟨rep_new hB, rfl, rfl⟩

theorem Stream.getReadSize (hs : Stream s L q) : s.getReadSize = q.length := by
  unfold ByteArray.getReadSize
  have := hs.length
  omega

/-- **Reserving.** Growing for `n` bytes changes neither the cursors nor the unread bytes. -/
theorem Stream.addCapacity (hs : Stream s L q) (hok : s.Roomy n) :
    ∃ s' L', s.addCapacity n = .ok s' ∧ Stream s' L' q ∧ s'.m_baseSize = s.m_baseSize ∧
      s'.m_writePos = s.m_writePos ∧ s'.m_readPos = s.m_readPos ∧ n ≤ s'.getCapacity ∧
      (s' = s ∨ s'.getCapacity < n + s.m_baseSize) := by
  obtain ⟨s', new, hrun, hrep, hB, hw, hr, hroom, htight, hbytes⟩ := hs.toRep.addCapacity hok
  refine ⟨s', L ++ new, hrun, ⟨hrep, ?_, by rw [hr, hw]; exact hs.length⟩,
    hB, hw, hr, hroom, htight⟩
  rw [hB, hr]
  exact hbytes _ _ hs.bytes (by rw [hs.length]; exact hs.write_le)

/-- Copying `buf` into the stretches behind the write cursor and moving the cursor. -/
theorem Stream.fill (hs : Stream s L q) {iovs : List IoVec} {len : Nat} {buf : List UInt8}
    (hcells : (cells iovs).map some =
      (List.range' s.m_writePos.pos len).map (cellAt L s.m_baseSize))
    (hlen : buf.length ≤ len) (hroom : buf.length ≤ s.getCapacity) :
    Stream { s with
      heap := ByteArray.fill s.heap iovs buf
      m_writePos := ⟨s.m_writePos.pos + buf.length,
        L[(s.m_writePos.pos + buf.length) / s.m_baseSize]?⟩ } L (q ++ buf) := by
  rw [← hs.length] at hcells
  obtain ⟨hblocks, hholds⟩ := hs.bytes.fill hs.linked.blocks hcells hlen
  have hwrite := hs.write_le
  have hread := hs.read_le
  unfold getCapacity at hroom
  refine ⟨⟨hs.base, hs.nonempty, ⟨hblocks.nodup, hblocks.chain, hblocks.size, hs.linked.fresh⟩,
    hs.capacity, ?_, ?_, rfl, hs.readCur⟩, hholds, ?_⟩
  · show s.m_writePos.pos + buf.length ≤ s.m_capacity
    omega
  · show s.m_readPos.pos ≤ s.m_writePos.pos + buf.length
    omega
  · show s.m_readPos.pos + (q ++ buf).length = s.m_writePos.pos + buf.length
    rw [List.length_append, ← Nat.add_assoc, hs.length]

/-- **`write`.** -/
theorem Stream.write (hs : Stream s L q) {buf : List UInt8}
    (hok : buf.length ≠ 0 → s.Roomy buf.length) :
    ∃ s' L', s.write buf = .ok s' ∧ Stream s' L' (q ++ buf) ∧ s'.m_baseSize = s.m_baseSize ∧
      s'.m_writePos.pos = s.m_writePos.pos + buf.length ∧ s'.m_readPos = s.m_readPos ∧
      (buf.length = 0 → s' = s) ∧
      (buf.length ≠ 0 → s'.getCapacity = s.getCapacity - buf.length ∨
        s'.getCapacity < s.m_baseSize) := by
  by_cases hn : buf.length = 0
  · obtain rfl := List.length_eq_zero_iff.mp hn
    exact ⟨s, L, by simp [ByteArray.write], by simpa using hs, rfl, rfl, rfl, fun _ => rfl, by simp⟩
  · obtain ⟨s₁, L₁, hrun, hs₁, hB, hw, hr, hroom, htight⟩ := hs.addCapacity (hok hn)
    have hwrite := hs₁.write_le
    have hroom' := hroom
    unfold getCapacity at hroom'
    obtain ⟨iovs, hstr, hcells⟩ := hs₁.stretchesFrom (n := buf.length) hs₁.writeCur
      (by omega) (by omega)
    refine ⟨_, L₁, ?_, hs₁.fill hcells le_rfl hroom, hB, by rw [← hw], hr, fun h => absurd h hn,
      fun _ => ?_⟩
    · simp only [ByteArray.write, hn, if_false, hrun, bind, Except.bind, hstr]
    · unfold getCapacity at htight ⊢
      simp only
      rcases htight with rfl | htight
      · left; omega
      · right; omega

/-- A `write` that cannot grow. -/
theorem Rep.write_null (hr : Rep s L) {buf : List UInt8} (hn : buf.length ≠ 0)
    (hbad : ¬ s.Roomy buf.length) : s.write buf = .error .null := by
  unfold Roomy at hbad
  rcases hr.addCapacity_null (n := buf.length) (by omega) (by omega) with hadd | ⟨s₁, hadd, hstr⟩
  · simp only [ByteArray.write, hn, if_false, hadd, bind, Except.bind]
  · simp only [ByteArray.write, hn, if_false, hadd, bind, Except.bind, hstr]

/-- **`read`** of bytes that are there. -/
theorem Stream.read (hs : Stream s L q) (hn : n ≤ q.length)
    (hcur : n ≠ 0 ∨ s.m_readPos.pos < s.m_capacity) :
    ∃ s', s.read n = .ok (some (q.take n), s') ∧ Stream s' L (q.drop n) ∧
      s'.m_baseSize = s.m_baseSize ∧ s'.m_writePos = s.m_writePos ∧
      s'.m_readPos.pos = s.m_readPos.pos + n ∧ s'.m_capacity = s.m_capacity := by
  have hlength := hs.length
  have hwrite := hs.write_le
  obtain ⟨iovs, hstr, hcells⟩ := hs.toRep.stretchesFrom (n := n) hs.readCur (by omega) (by omega)
  refine ⟨{ s with m_readPos := ⟨s.m_readPos.pos + n, L[(s.m_readPos.pos + n) / s.m_baseSize]?⟩ },
    ?_,
    ⟨⟨hs.base, hs.nonempty, ⟨hs.linked.nodup, hs.linked.chain, hs.linked.size, hs.linked.fresh⟩,
      hs.capacity, hs.write_le, ?_, hs.writeCur, rfl⟩, hs.bytes.drop n, ?_⟩, rfl, rfl, rfl, rfl⟩
  · simp only [ByteArray.read, hs.getReadSize, show ¬ q.length < n by omega, if_false, hstr, bind,
      Except.bind, hs.bytes.gather hn hcells]
  · show s.m_readPos.pos + n ≤ s.m_writePos.pos
    omega
  · show s.m_readPos.pos + n + (q.drop n).length = s.m_writePos.pos
    rw [List.length_drop]
    omega

/-- `read` of more bytes than there are. -/
theorem Stream.read_outOfRange (hs : Stream s L q) (hn : q.length < n) :
    s.read n = .ok (none, s) := by
  simp [ByteArray.read, hs.getReadSize, hn]

/-- `read` of no bytes behind the last block. -/
theorem Rep.read_null (hr : Rep s L) (hfull : s.m_readPos.pos = s.m_capacity) :
    s.read 0 = .error .null := by
  have hcur : s.m_readPos.cur = none := by
    rw [hr.readCur, hfull, hr.capacity, Nat.mul_div_cancel _ hr.base, List.getElem?_eq_none le_rfl]
  simp [ByteArray.read, ByteArray.stretchesFrom, hcur, ByteArray.deref, bind, Except.bind]

/-- **`toString`.** -/
theorem Stream.toString (hs : Stream s L q) : s.toString = .ok (some q) := by
  unfold ByteArray.toString
  split
  · rename_i h0
    rw [hs.getReadSize] at h0
    rw [List.length_eq_zero_iff.mp h0]
  · rename_i h0
    rw [hs.getReadSize] at h0 ⊢
    have hlength := hs.length
    have hwrite := hs.write_le
    obtain ⟨iovs, hstr, hcells⟩ := hs.toRep.stretchesFrom (n := q.length) (p := s.m_readPos)
      hs.readCur (by omega) (by omega)
    have hgather := hs.bytes.gather le_rfl hcells
    rw [List.take_length] at hgather
    have hsize : ¬ sizeSub s.m_writePos.pos s.m_readPos.pos < q.length := by
      rw [sizeSub, if_pos hs.read_le]
      omega
    simp only [ByteArray.readAt, hsize, if_false]
    rw [show (⟨s.m_readPos.pos, s.m_readPos.cur⟩ : Pointer) = s.m_readPos from rfl, hstr]
    simp only [bind, Except.bind, hgather]

/-- The loop of `clear` deletes a list of blocks and nothing else. -/
theorem deleteBlocks_ok : ∀ (l : List Nat) (fuel : Nat) (p : Option Nat) (h : Heap),
    l.length ≤ fuel →
    l.Nodup → Chain (nextOf h) p l none → (∀ a ∈ l, (h a).isSome) →
    ∃ h', deleteBlocks fuel p h = .ok h' ∧ ∀ a, a ∉ l → h' a = h a
  | [], fuel, p, h, _, _, hc, _ => by
    obtain rfl : p = none := hc
    exact ⟨h, by cases fuel <;> rfl, fun _ _ => rfl⟩
  | a :: l, 0, _, _, hlen, _, _, _ => by simp at hlen
  | a :: l, fuel + 1, p, h, hlen, hnd, hc, hsome => by
    obtain ⟨rfl, hc⟩ := hc
    obtain ⟨ha, hnd⟩ := List.nodup_cons.mp hnd
    obtain ⟨node, hnode⟩ := Option.isSome_iff_exists.mp (hsome a List.mem_cons_self)
    have hother : ∀ b ∈ l, Function.update h a none b = h b := by
      intro b hb
      rw [Function.update_of_ne]
      rintro rfl
      exact ha hb
    -- `tmp = tmp->next` has read the link before the block is deleted
    obtain ⟨h', hrun, hh'⟩ := deleteBlocks_ok l fuel node.next (Function.update h a none)
      (by simpa using hlen) hnd
      (by
        rw [nextOf, hnode] at hc
        exact hc.frame fun b hb => by rw [nextOf, nextOf, hother b hb])
      (fun b hb => by rw [hother b hb]; exact hsome b (List.mem_cons_of_mem a hb))
    refine ⟨h', ?_, fun b hb => ?_⟩
    · simp only [deleteBlocks, ByteArray.deref, hnode, bind, Except.bind, hrun]
    · rw [List.mem_cons, not_or] at hb
      rw [hh' b hb.2, Function.update_of_ne hb.1]

/-- **`clear`.** -/
theorem Rep.clear (hr : Rep s L) :
    ∃ s' L', s.clear = .ok s' ∧ Stream s' L' [] ∧ s'.m_baseSize = s.m_baseSize ∧
      s'.m_writePos.pos = 0 ∧ s'.m_readPos.pos = 0 ∧ s'.m_capacity = s.m_baseSize := by
  obtain ⟨root, l, rfl⟩ := List.exists_cons_of_ne_nil hr.nonempty
  have hl := hr.linked
  obtain ⟨hroot, hchain⟩ := hl.chain
  obtain ⟨hnotin, hnd⟩ := List.nodup_cons.mp hl.nodup
  obtain ⟨node, hnode, hsize⟩ := hl.size root List.mem_cons_self
  have hlen := hl.length_le
  rw [nextOf, hnode] at hchain
  obtain ⟨heap, hrun, hheap⟩ := deleteBlocks_ok l s.fresh node.next s.heap
    (Nat.le_trans (Nat.le_succ _) hlen) hnd hchain fun a ha => by
      obtain ⟨node', hnode', -⟩ := hl.size a (List.mem_cons_of_mem _ ha)
      simp [hnode']
  refine ⟨{ s with
      m_writePos := ⟨0, some root⟩
      m_readPos := ⟨0, some root⟩
      m_capacity := s.m_baseSize
      heap := Function.update heap root (some { node with next := none }) }, [root], ?_,
    ⟨⟨hr.base, by simp, ⟨by simp, ?_, ?_, ?_⟩, ?_, ?_, ?_, ?_, ?_⟩, ?_, ?_⟩, rfl, rfl, rfl, rfl⟩
  · simp only [ByteArray.clear, hroot, ByteArray.deref, hnode, bind, Except.bind, hrun]
  all_goals simp [nextOf, Holds, hsize, hl.fresh root, hroot]

end

end LimWebserver.ByteArray
