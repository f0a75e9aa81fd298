import Mathlib.Algebra.Ring.Nat
import Mathlib.Data.List.Range
import Mathlib.Data.List.Nodup

namespace LimWebserver.LogSink

/-!
# Splog — `LogSink::append`

A line is handed to `fwrite_unlocked`, and what it does not take is offered again.  The bytes of the
line are told apart by their positions.

* `Stream` — how many bytes each call takes; `Sink` — what has been taken, and the size of the file;
* `write`, `appendLoop`, `append` — the functions, of `FileSink` or of another sink;
* `Appended` — what `append` is to do; `bytes_range` — the bytes of a prefix;
* `appendLoop_grows` — what has been taken stays;
* `append_repeats` — the rest of a line taken twice; `appended_iff` — all lines and all streams.
-/

/-- `fwrite_unlocked`: how many bytes its `i`-th call takes of those that it is offered. -/
structure Stream where
  count : Nat → Nat → Nat
  count_le : ∀ i offered, count i offered ≤ offered

/-- The `FILE` and the counters, since the beginning of `append`. -/
structure Sink where
  /-- the positions in the line of the bytes that have been taken -/
  written : List Nat
  /-- what the calls have returned -/
  results : List Nat
  /-- `m_fileSize->m_size` of a `FileSink` -/
  m_size : Int
  deriving DecidableEq, Repr

variable (st : Stream) (isFile : Bool)

/-- `LogSink::write(logline + n, len)`, or `FileSink::write`, which adds the count to the size. -/
def write (s : Sink) (n len : Nat) : Nat × Sink :=
  let rt := st.count s.results.length len
  (rt,
    { written := s.written ++ List.range' n rt
      results := s.results ++ [rt]
      m_size := if isFile then s.m_size + rt else s.m_size })

/-- The loop of `append`; none if it has not ended after so many rounds. -/
def appendLoop (len n : Nat) : Nat → Nat → Sink → Option Sink
  | 0, _, _ => none
  | fuel + 1, remain, s =>
    if 0 < remain then
      let (x, s) := write st isFile s n remain
      if x = 0 then some s
      -- `x += x`: neither `n` nor, behind it, `remain` changes
      else appendLoop len n fuel (len - n) s
    else some s

/-- `append(logline, len)` -/
def append (fuel len : Nat) (s : Sink) : Option Sink :=
  let (n, s) := write st isFile s 0 len
  appendLoop st isFile len n fuel (len - n) s

/-- The sink at the beginning of a call. -/
def Sink.start (m_size : Int) : Sink := ⟨[], [], m_size⟩

/-- The bytes of a line at the positions. -/
def bytes (logline : List UInt8) (written : List Nat) : List UInt8 :=
  written.filterMap fun i => logline[i]?

/-- A prefix of a line of `len` bytes has been written, each byte once and in order; all of it if no
    call has returned 0, and otherwise what was taken before the first retry that returned 0; and
    the size of a file has grown by as much. -/
structure Wrote (len : Nat) (m_size : Int) (s : Sink) : Prop where
  inOrder : s.written = List.range s.written.length
  length_le : s.written.length ≤ len
  front : ∀ logline : List UInt8, logline.length = len →
    bytes logline s.written = logline.take s.written.length
  whole : 0 ∉ s.results → s.written.length = len
  untilZero : s.written.length =
    (s.results.take 1).sum + ((s.results.drop 1).takeWhile (· ≠ 0)).sum
  size : s.m_size = if isFile then m_size + s.written.length else m_size

/-- **What `append` is to do**: it ends, and has written the line as far as the stream took it. -/
def Appended (len : Nat) (m_size : Int) : Prop :=
  ∃ fuel s, append st isFile fuel len (.start m_size) = some s ∧ Wrote isFile len m_size s

/-- The bytes of a prefix. -/
theorem bytes_range (logline : List UInt8) {k : Nat} (hk : k ≤ logline.length) :
    bytes logline (List.range k) = logline.take k := by
  induction k with
  | zero => rfl
  | succ k ih =>
    have hget : logline[k]? = some logline[k] := List.getElem?_eq_getElem hk
    rw [bytes, List.range_succ, List.filterMap_append, ← bytes, ih (by omega),
      List.take_succ_eq_append_getElem hk, List.filterMap_cons_some hget, List.filterMap_nil]

variable {st : Stream} {isFile : Bool} {len n fuel remain : Nat} {s s' : Sink}

/-- What has been taken stays. -/
theorem appendLoop_grows (h : appendLoop st isFile len n fuel remain s = some s') :
    s.written <+: s'.written := by
  induction fuel generalizing remain s with
  | zero => exact absurd h (by simp [appendLoop])
  | succ fuel ih =>
    rw [appendLoop] at h
    split_ifs at h with hremain
    · dsimp only at h
      split_ifs at h with hx
      · rw [← Option.some.inj h]
        exact List.prefix_append _ _
      · exact (List.prefix_append _ _).trans (ih h)
    · obtain rfl := Option.some.inj h
      exact List.prefix_rfl

/-- A round in which something is left. -/
theorem appendLoop_succ (hn : n < len) : appendLoop st isFile len n (fuel + 1) (len - n) s =
    if st.count s.results.length (len - n) = 0 then some (write st isFile s n (len - n)).2
    else appendLoop st isFile len n fuel (len - n) (write st isFile s n (len - n)).2 := by
  rw [appendLoop, if_pos (by omega)]
  rfl

/-- The sink after calls each of which has gone on where the one before it ended. -/
def taken (isFile : Bool) (m_size : Int) (results : List Nat) : Sink where
  written := List.range results.sum
  results := results
  m_size := if isFile then m_size + results.sum else m_size

section Taken

variable {m_size : Int} {results : List Nat} {offered : Nat}

/-- One more such call; one that takes nothing may be made anywhere. -/
theorem write_taken (h : n = results.sum ∨ st.count results.length offered = 0) :
    (write st isFile (taken isFile m_size results) n offered).2 =
      taken isFile m_size (results ++ [st.count results.length offered]) := by
  have hwritten : List.range results.sum ++ List.range' n (st.count results.length offered) =
      List.range (results ++ [st.count results.length offered]).sum := by
    rw [List.sum_append, List.sum_singleton]
    rcases h with rfl | hzero
    · rw [List.range_eq_range', List.range_eq_range', ← List.range'_append_1, Nat.zero_add]
    · rw [hzero, List.range'_zero, List.append_nil, Nat.add_zero]
  have hsize : (if isFile then (taken isFile m_size results).m_size +
      (st.count results.length offered : Int) else (taken isFile m_size results).m_size) =
        (taken isFile m_size (results ++ [st.count results.length offered])).m_size := by
    cases isFile with
    | false => rfl
    | true =>
      show m_size + (results.sum : Int) + _ = m_size + ((results ++ _).sum : Nat)
      rw [List.sum_append, List.sum_singleton]
      omega
  exact Sink.mk.injEq .. |>.mpr ⟨hwritten, rfl, hsize⟩

/-- A sink that has taken all that the calls have returned is as it is to be. -/
theorem wrote_taken (hle : results.sum ≤ len) (hwhole : 0 ∉ results → results.sum = len)
    (hzero : results.sum = (results.take 1).sum + ((results.drop 1).takeWhile (· ≠ 0)).sum) :
    Wrote isFile len m_size (taken isFile m_size results) where
  inOrder := by rw [taken, List.length_range]
  length_le := by rw [taken, List.length_range]; exact hle
  front logline hlogline := by
    rw [taken, List.length_range]
    exact bytes_range logline (hlogline ▸ hle)
  whole h := by rw [taken, List.length_range]; exact hwhole h
  untilZero := by rw [taken, List.length_range]; exact hzero
  size := by rw [taken, List.length_range]

/-- The first call. -/
theorem append_first (hn : st.count 0 len = n) (fuel : Nat) :
    append st isFile fuel len (.start m_size) =
      appendLoop st isFile len n fuel (len - n) (taken isFile m_size [n]) := by
  have hstart : Sink.start m_size = taken isFile m_size [] := by
    cases isFile <;> simp [Sink.start, taken]
  have hfirst : (write st isFile (.start m_size) 0 len).2 =
      taken isFile m_size [st.count 0 len] := by
    rw [hstart]
    exact write_taken (.inl rfl)
  rw [← hn, ← hfirst]
  rfl

/-- The first retry, of a call that has left something. -/
theorem append_retry (hn : st.count 0 len = n) (hlt : n < len) (fuel : Nat) :
    append st isFile (fuel + 1) len (.start m_size) =
      if st.count 1 (len - n) = 0 then some (taken isFile m_size [n, st.count 1 (len - n)])
      else appendLoop st isFile len n fuel (len - n)
        (taken isFile m_size [n, st.count 1 (len - n)]) := by
  have hretry : (write st isFile (taken isFile m_size [n]) n (len - n)).2 =
      taken isFile m_size [n, st.count 1 (len - n)] := write_taken (.inl List.sum_singleton.symm)
  rw [append_first hn, appendLoop_succ hlt, hretry]
  rfl

/-- The second retry, of one that has taken something: it offers the same bytes again. -/
theorem append_again (hn : st.count 0 len = n) (hlt : n < len)
    (hone : st.count 1 (len - n) ≠ 0) (fuel : Nat) :
    append st isFile (fuel + 2) len (.start m_size) =
      if st.count 2 (len - n) = 0 then
        some (write st isFile (taken isFile m_size [n, st.count 1 (len - n)]) n (len - n)).2
      else appendLoop st isFile len n fuel (len - n)
        (write st isFile (taken isFile m_size [n, st.count 1 (len - n)]) n (len - n)).2 := by
  rw [append_retry hn hlt, if_neg hone, appendLoop_succ hlt]
  rfl

/-- **Two retries that take bytes** write one of them twice, if the loop ends at all. -/
theorem not_appended (hn : st.count 0 len = n) (hlt : n < len)
    (hone : st.count 1 (len - n) ≠ 0) (htwo : st.count 2 (len - n) ≠ 0) :
    ¬ Appended st isFile len m_size := by
  rintro ⟨fuel, s, hend, hwrote⟩
  match fuel with
  | 0 =>
    rw [append_first hn] at hend
    exact absurd hend nofun
  | 1 =>
    rw [append_retry hn hlt, if_neg hone] at hend
    exact absurd hend nofun
  | fuel + 2 =>
    rw [append_again hn hlt hone, if_neg htwo] at hend
    have hnodup : s.written.Nodup := by
      rw [hwrote.inOrder]
      exact List.nodup_range
    have hmem : n ∈ List.range [n, st.count 1 (len - n)].sum := by
      rw [List.mem_range]
      simp
      omega
    have hmem' : n ∈ List.range' n (st.count 2 (len - n)) := by
      rw [List.mem_range'_1]
      omega
    exact List.disjoint_of_nodup_append (hnodup.sublist (appendLoop_grows hend).sublist)
      hmem hmem'

end Taken

/-- The rest of a line, taken twice. -/
def twice : Stream where
  count i offered := min ([1, 2, 2].getD i 0) offered
  count_le _ offered := Nat.min_le_right _ offered

/-- **A retry that takes bytes is made again**: of three bytes the last two are written twice. -/
theorem append_repeats : ¬ ∀ st isFile len m_size, Appended st isFile len m_size := by
  intro h
  obtain ⟨fuel, s, hcall, hwrote⟩ := h twice true 3 0
  have hshort : append twice true 0 3 (.start 0) = none ∧ append twice true 1 3 (.start 0) = none ∧
      append twice true 2 3 (.start 0) = none := by decide
  have hlong : ∀ fuel, append twice true (fuel + 3) 3 (.start 0) =
      some ⟨[0, 1, 2, 1, 2], [1, 2, 2, 0], 5⟩ := fun _ => rfl
  match fuel with
  | 0 => exact absurd (hshort.1.symm.trans hcall) nofun
  | 1 => exact absurd (hshort.2.1.symm.trans hcall) nofun
  | 2 => exact absurd (hshort.2.2.symm.trans hcall) nofun
  | fuel + 3 =>
    obtain rfl := Option.some.inj ((hlong fuel).symm.trans hcall)
    exact absurd hwrote.inOrder (by decide)

/-- **The line is written** exactly if the first call takes all of it, or the first retry returns 0,
    or the second. -/
theorem appended_iff (st : Stream) (isFile : Bool) (len : Nat) (m_size : Int) :
    Appended st isFile len m_size ↔
      st.count 0 len = len ∨ st.count 1 (len - st.count 0 len) = 0 ∨
        st.count 2 (len - st.count 0 len) = 0 := by
  have hle := st.count_le 0 len
  obtain ⟨n, hn⟩ : ∃ n, st.count 0 len = n := ⟨_, rfl⟩
  have hx := st.count_le 1 (len - n)
  rw [hn] at hle ⊢
  by_cases hall : n = len
  · -- nothing is left for the loop
    refine iff_of_true ⟨1, taken isFile m_size [n], ?_, ?_⟩ (.inl hall)
    · rw [append_first hn, appendLoop, if_neg (by omega)]
    · exact wrote_taken (by simpa using hle) (by simpa using fun _ => hall) (by simp)
  have hlt : n < len := by omega
  rw [or_iff_right hall]
  by_cases hone : st.count 1 (len - n) = 0
  · refine iff_of_true ⟨1, taken isFile m_size [n, 0], ?_, ?_⟩ (.inl hone)
    · rw [append_retry hn hlt, if_pos hone, hone]
    · exact wrote_taken (by simpa using hle) (by simp) (by simp)
  rw [or_iff_right hone]
  by_cases htwo : st.count 2 (len - n) = 0
  · refine iff_of_true ⟨2, taken isFile m_size [n, st.count 1 (len - n), 0], ?_, ?_⟩ htwo
    · rw [append_again hn hlt hone, if_pos htwo, write_taken (.inr htwo)]
      show some (taken isFile m_size [n, _, st.count 2 (len - n)]) = _
      rw [htwo]
    · exact wrote_taken (by simp; omega) (by simp) (by simp [hone])
  · exact iff_of_false (not_appended hn hlt hone htwo) htwo

end LimWebserver.LogSink
