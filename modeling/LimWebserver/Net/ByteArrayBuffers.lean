import LimWebserver.Net.ByteArrayPosition

namespace LimWebserver.ByteArray

open LimWebserver.Lib

/-!
# Net — segments of unread bytes

* `Exposes` — what the segments of `getReadBuffers` are to be, and that `addReadPosition` over them
  is `read`;
* `Blocks.stretches_pos` — no segment is empty;
* `Written.exposes` — the loop over blocks yields such segments;
* `getReadBuffers_exposes`, `getReadBuffersAt_exposes_iff` — the two overloads;
* `buffersAt_not_exposed` — behind the last byte;
* `buffers_iff_clamped` — from which positions on the segments are right.
-/

/-- The segments are the bytes at the positions from `first` up to `last`, in order, none of them
    is empty, `size` counts their bytes, and `addReadPosition` over some of these does what `read`
    does. -/
structure Exposes (s : ByteArray) (b : List UInt8) (first last size : Nat) (iovs : List IoVec) :
    Prop where
  addresses : (cells iovs).map some = (List.range' first (last - first)).map s.cell
  bytes : gather s.heap iovs = (b.take last).drop first
  nonempty : ∀ v ∈ iovs, 0 < v.iov_len
  total : (iovs.map IoVec.iov_len).sum = size
  position : ∀ k : Int32, 0 ≤ k.toInt → k.toInt ≤ size →
    s.addReadPosition k = (s.read k.toInt.toNat).map Prod.snd

section
variable {s : ByteArray} {h : Heap} {B : Nat} {root : Option Nat} {L : List Nat} {b : List UInt8}
  {len size last p : Nat} {iovs : List IoVec}

/-- The segments have as many bytes as addresses. -/
theorem length_cells (iovs : List IoVec) :
    (ByteArray.cells iovs).length = (iovs.map IoVec.iov_len).sum := by
  simp [ByteArray.cells, List.length_flatMap]

/-- **No segment is empty**, as a block has room and there is something left. -/
theorem Blocks.stretches_pos (hB : 0 < B) (hb : Blocks h B root L) (fuel : Nat) :
    ∀ {i npos ncap len : Nat} {iovs : List IoVec} {cur : Option Nat}, 0 < ncap →
      stretches h fuel L[i]? npos ncap len = .ok (iovs, cur) → ∀ v ∈ iovs, 0 < v.iov_len := by
  induction fuel with
  | zero =>
    intro i npos ncap len iovs cur _ hrun
    unfold stretches at hrun
    split at hrun
    · obtain ⟨rfl, -⟩ := Prod.mk.inj (Except.ok.inj hrun)
      simp
    · cases hrun
  | succ fuel ih =>
    intro i npos ncap len iovs cur hcap hrun
    unfold stretches at hrun
    split at hrun
    · obtain ⟨rfl, -⟩ := Prod.mk.inj (Except.ok.inj hrun)
      simp
    · rename_i hlen
      cases ha : L[i]? with
      | none => simp [ha] at hrun
      | some a =>
        obtain ⟨node, hnode, -, hnext⟩ := hb.deref ha
        simp only [ha, hnode, bind, Except.bind] at hrun
        split at hrun
        · obtain ⟨rfl, -⟩ := Prod.mk.inj (Except.ok.inj hrun)
          simp only [List.mem_singleton, forall_eq]
          omega
        · -- the whole rest of a block, and what comes behind it
          rw [hnext] at hrun
          obtain ⟨next, hderef, hrun⟩ := bind_eq_ok hrun
          obtain ⟨⟨iovs', cur'⟩, hrec, hret⟩ := bind_eq_ok hrun
          obtain ⟨rfl, -⟩ := Prod.mk.inj (Except.ok.inj hret)
          have hi : i + 1 < L.length := by
            by_contra hi
            rw [List.getElem?_eq_none (Nat.le_of_not_lt hi)] at hderef
            cases hderef
          obtain ⟨node', hnode', hsize, -⟩ := hb.deref_getElem? hi
          obtain rfl : next = node' := Except.ok.inj (hderef.symm.trans hnode')
          have hrest := ih (by omega) hrec
          simpa [hcap] using hrest

/-- **The cursor moves as in `read`.** -/
theorem addReadPosition_eq_read {k : Int32} (hk : k.toInt.toNat ≤ s.getReadSize) :
    s.addReadPosition k = (s.read k.toInt.toNat).map Prod.snd := by
  unfold addReadPosition ByteArray.read
  rw [if_neg (not_lt.mpr hk)]
  cases s.stretchesFrom s.m_readPos k.toInt.toNat <;> rfl

/-- **The segments.** What the loop over blocks yields from a position on. -/
theorem Written.exposes (hw : Written s L b) {cur : Option Nat} (hcur : cur = L[p / s.m_baseSize]?)
    (hp : s.m_readPos.pos ≤ p) (hlen : p + len ≤ s.m_writePos.pos) (hpos : 0 < len) :
    ∃ iovs cur', s.stretchesFrom ⟨p, cur⟩ len = .ok (iovs, cur') ∧
      Exposes s b p (p + len) len iovs := by
  have hwrite := hw.write_le
  have hlength := hw.length
  obtain ⟨iovs, hrun, hcells⟩ := hw.stretchesFrom (p := ⟨p, cur⟩) (n := len) hcur
    (show p < s.m_capacity by omega) (show p + len ≤ s.m_capacity by omega)
  refine ⟨iovs, _, hrun, ?_, ?_, ?_, ?_, fun k _ hk => addReadPosition_eq_read ?_⟩
  · rw [hcells, Nat.add_sub_cancel_left]
    exact List.map_congr_left fun i _ => (hw.cell_eq i).symm
  · have hdrop := hw.bytes.drop p
    rw [Nat.zero_add] at hdrop
    rw [hdrop.gather (show len ≤ (b.drop p).length by rw [List.length_drop]; omega) hcells,
      List.drop_take, Nat.add_sub_cancel_left]
  · obtain ⟨node, hderef, hstr⟩ := bind_eq_ok hrun
    obtain ⟨node', hnode', hsize, -⟩ := hw.linked.blocks.deref_getElem?
      (show p / s.m_baseSize < L.length by
        apply div_lt_length
        rw [← hw.capacity]
        omega)
    rw [← hcur] at hnode'
    obtain rfl : node = node' := Except.ok.inj (hderef.symm.trans hnode')
    have hmod := Nat.mod_lt p hw.base
    subst hcur
    have hroom : 0 < node.size - p % s.m_baseSize := by
      rw [hsize]
      omega
    exact hw.linked.blocks.stretches_pos hw.base len hroom hstr
  · have hlen' := congrArg List.length hcells
    simp only [List.length_map, List.length_range', length_cells] at hlen'
    exact hlen'
  · unfold ByteArray.getReadSize
    omega

/-- No bytes. -/
theorem exposes_nil (hlast : last ≤ p) : Exposes s b p last 0 [] := by
  refine ⟨?_, ?_, by simp, rfl, fun k _ hk => addReadPosition_eq_read (by omega)⟩
  · rw [Nat.sub_eq_zero_of_le hlast]
    rfl
  · rw [List.drop_eq_nil_of_le (Nat.le_trans (List.length_take_le _ _) hlast)]
    rfl

/-! ### The two overloads -/

/-- The length both overloads start from. -/
theorem clamped (s : ByteArray) (len : Nat) :
    (if s.getReadSize < len then s.getReadSize else len) = min len s.getReadSize := by
  split <;> omega

/-- From the read position on. -/
theorem Written.getReadBuffers_exposes (hw : Written s L b) (len : Nat) :
    ∃ size iovs, s.getReadBuffers len = .ok (size, iovs) ∧
      Exposes s b s.m_readPos.pos (min (s.m_readPos.pos + len) s.m_writePos.pos) size iovs := by
  have hread := hw.read_le
  have hsize : s.getReadSize = s.m_writePos.pos - s.m_readPos.pos := rfl
  simp only [getReadBuffers, clamped]
  by_cases hlen : min len s.getReadSize = 0
  · rw [if_pos hlen]
    exact ⟨0, [], rfl, exposes_nil (by omega)⟩
  · obtain ⟨iovs, cur', hrun, hexposes⟩ := hw.exposes hw.readCur le_rfl
      (show s.m_readPos.pos + min len s.getReadSize ≤ s.m_writePos.pos by omega) (by omega)
    refine ⟨min len s.getReadSize, iovs, ?_, ?_⟩
    · rw [if_neg hlen]
      simp only [hrun, bind, Except.bind]
    · rwa [show min (s.m_readPos.pos + len) s.m_writePos.pos =
        s.m_readPos.pos + min len s.getReadSize by omega]

/-- The length is clamped by the unread bytes, wherever the position is. -/
theorem getReadBuffersAt_size (hrun : s.getReadBuffersAt len p = .ok (size, iovs)) :
    size = min len s.getReadSize := by
  simp only [getReadBuffersAt, clamped] at hrun
  split at hrun
  · rename_i hlen
    obtain ⟨rfl, -⟩ := Prod.mk.inj (Except.ok.inj hrun)
    exact hlen.symm
  · obtain ⟨cur, -, hrun⟩ := bind_eq_ok hrun
    obtain ⟨r, -, hret⟩ := bind_eq_ok hrun
    exact (Prod.mk.inj (Except.ok.inj hret)).1.symm

/-- **From another position on.** The segments are right from the read position on, and where there
    are as many bytes behind the position as are asked for. -/
theorem Written.getReadBuffersAt_exposes_iff (hw : Written s L b) (hread : s.m_readPos.pos ≤ p)
    (hwrite : p ≤ s.m_writePos.pos) (len : Nat) :
    (∃ size iovs, s.getReadBuffersAt len p = .ok (size, iovs) ∧
      Exposes s b p (min (p + len) s.m_writePos.pos) size iovs) ↔
      p = s.m_readPos.pos ∨ p + len ≤ s.m_writePos.pos := by
  have hsize : s.getReadSize = s.m_writePos.pos - s.m_readPos.pos := rfl
  constructor
  · rintro ⟨size, iovs, hrun, hexposes⟩
    have hcount := congrArg List.length hexposes.addresses
    rw [List.length_map, length_cells, hexposes.total, List.length_map, List.length_range',
      getReadBuffersAt_size hrun] at hcount
    omega
  · intro hcond
    simp only [getReadBuffersAt, clamped]
    by_cases hlen : min len s.getReadSize = 0
    · rw [if_pos hlen]
      exact ⟨0, [], rfl, exposes_nil (by omega)⟩
    · have hcap := hw.write_le
      have hroot := hw.linked.chain.head
      have hblock : p / s.m_baseSize < L.length := by
        apply div_lt_length
        rw [← hw.capacity]
        omega
      have hwalk := hw.linked.blocks.forward_ok
        (show 0 + p / s.m_baseSize ≤ L.length by omega)
      rw [← hroot, Nat.zero_add] at hwalk
      obtain ⟨iovs, cur', hrun, hexposes⟩ := hw.exposes rfl hread
        (show p + min len s.getReadSize ≤ s.m_writePos.pos by omega) (by omega)
      refine ⟨min len s.getReadSize, iovs, ?_, ?_⟩
      · rw [if_neg hlen]
        simp only [hwalk, bind, Except.bind, hrun]
      · rwa [show min (p + len) s.m_writePos.pos = p + min len s.getReadSize by omega]

end

/-- **Bytes that have not been written.** Of three bytes one has been read, and from the position of
    the last one on two are exposed. -/
theorem buffersAt_not_exposed : ¬ ∀ (B : Nat) (s : ByteArray) (b : List UInt8),
    (history B).Reachable (s, b) → ∀ len p, s.m_readPos.pos ≤ p → p ≤ s.m_writePos.pos →
      ∃ size iovs, s.getReadBuffersAt len p = .ok (size, iovs) ∧
        Exposes s b p (min (p + len) s.m_writePos.pos) size iovs := by
  intro h
  obtain ⟨s, hexec, hread, hwrite⟩ : ∃ s, (history 16).exec (new 16, [])
      [.call (.op (.write [1, 2, 3])), .call (.op (.read 1))] = some (s, [1, 2, 3]) ∧
        s.m_readPos.pos = 1 ∧ s.m_writePos.pos = 3 := ⟨_, rfl, rfl, rfl⟩
  have hreach := LTS.reachable_of_exec (show (history 16).init (new 16, []) from
    ⟨rfl, by decide, by decide⟩) hexec
  obtain ⟨⟨L, hw⟩, -⟩ := reachable_written hreach
  have hcond := (hw.getReadBuffersAt_exposes_iff (p := 2) (by omega) (by omega) 3).mp
    (h 16 s _ hreach 3 2 (by omega) (by omega))
  omega

/-- **The segments of unread bytes.** Those from the read position on are always right; those from
    another position on are when it is the read position or no more bytes are asked for than there
    are behind it. -/
theorem buffers_iff {B : Nat} {s : ByteArray} {b : List UInt8} (h : (history B).Reachable (s, b))
    (len : Nat) {p : Nat} (hread : s.m_readPos.pos ≤ p) (hwrite : p ≤ s.m_writePos.pos) :
    ((∃ size iovs, s.getReadBuffers len = .ok (size, iovs) ∧
      Exposes s b s.m_readPos.pos (min (s.m_readPos.pos + len) s.m_writePos.pos) size iovs) ∧
    (∃ size iovs, s.getReadBuffersAt len p = .ok (size, iovs) ∧
      Exposes s b p (min (p + len) s.m_writePos.pos) size iovs)) ↔
      p = s.m_readPos.pos ∨ p + len ≤ s.m_writePos.pos := by
  obtain ⟨⟨L, hw⟩, -⟩ := reachable_written h
  rw [and_iff_right (hw.getReadBuffers_exposes len)]
  exact hw.getReadBuffersAt_exposes_iff hread hwrite len

/-- Two bytes from the second one on, over the end of a block. -/
theorem buffers_iff_second : ∃ s, (history 2).exec (new 2, [])
    [.call (.op (.write [1, 2, 3, 4]))] = some (s, [1, 2, 3, 4]) ∧
      ∃ size iovs, s.getReadBuffersAt 2 1 = .ok (size, iovs) ∧
        Exposes s [1, 2, 3, 4] 1 3 size iovs := by
  obtain ⟨s, hexec, hread, hwrite⟩ : ∃ s, (history 2).exec (new 2, [])
      [.call (.op (.write [1, 2, 3, 4]))] = some (s, [1, 2, 3, 4]) ∧
        s.m_readPos.pos = 0 ∧ s.m_writePos.pos = 4 := ⟨_, rfl, rfl, rfl⟩
  have hreach := LTS.reachable_of_exec (show (history 2).init (new 2, []) from
    ⟨rfl, by decide, by decide⟩) hexec
  have hboth := (buffers_iff hreach 2 (p := 1) (by omega) (by omega)).mpr (.inr (by omega))
  rw [hwrite] at hboth
  exact ⟨s, hexec, hboth.2⟩

end LimWebserver.ByteArray
