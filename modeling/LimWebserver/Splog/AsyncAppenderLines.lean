import LimWebserver.Splog.AsyncAppender
import LimWebserver.Splog.LogAppender
import Mathlib.Data.List.Flatten
import Mathlib.Data.List.Induction

namespace LimWebserver.AsyncAppender

open LimWebserver.Lib

/-!
# Splog — `AsyncAppender`: whole lines

The buffers seen as what they hold: the front is a row of buffers of which the last one grows, the
back end takes over the row, and hands the buffers on one after the other.

* `Log`, `Log.Step` — the row of buffers and what can happen to it; `log_step` — nothing else does;
* `Log.Cut` — the lines of each buffer; `cut_step` — a step leaves lines as they are;
* `whole_lines` — what is handed over are whole lines, and all of them if no swap is a long one;
* `messages_read` — so these are the lines of messages, where those have been formatted in whole;
* `Log.Filled` — the buffers that are full; `discards_many` — what a long swap needs.
-/

/-- The buffers as what they hold. -/
@[ext]
structure Log where
  /-- the front, the current buffer last -/
  front : List Bytes
  /-- for each swap, what has been taken over -/
  swapped : List (List Bytes)
  /-- what the back end has still to hand over -/
  left : List Bytes
  handed : Bytes
  accepted : List Line
  /-- the locked section of `stop()` is over -/
  stopped : Bool

/-- What can happen to the buffers. -/
inductive Log.Step : Log → Log → Prop
  | quiet {v : Log} {stopped : Bool} (h : v.stopped = true → stopped = true) :
      Step v { v with stopped := stopped }
  | write {v : Log} {full : List Bytes} {current : Bytes} {line : Line}
      (h : v.front = full ++ [current]) :
      Step v { v with
        front := full ++ [current ++ line.1]
        accepted := v.accepted ++ [line] }
  | next {v : Log} {full : List Bytes} {current : Bytes} {line : Line}
      (h : v.front = full ++ [current])
      (hfull : kLargeBuffer ≤ current.length + line.1.length) :
      Step v { v with
        front := full ++ [current, line.1]
        accepted := v.accepted ++ [line] }
  | submit {v : Log} (h : v.stopped = false) :
      Step v { v with front := v.front ++ [[]], stopped := true }
  | swap {v : Log} (h : v.left = []) :
      Step v { v with
        front := [[]]
        swapped := v.swapped ++ [v.front]
        left := keep v.front }
  | hand {v : Log} {current : Bytes} {rest : List Bytes} (h : v.left = current :: rest) :
      Step v { v with left := rest, handed := v.handed ++ current }

variable {Θ : Type*}

/-- What the buffers of an appender hold. -/
def State.log (s : State Θ) : Log where
  front := (s.m_buffer.buffer_vec ++ s.m_buffer.buffer1.toList).map s.heap
  swapped := s.swapped
  left := s.unwritten.map s.heap
  handed := s.handed
  accepted := s.accepted
  stopped := s.stop = .join ∨ s.stop = .returned

/-! ### The steps -/

section Steps

variable {s s' : State Θ} {b c : Nat}

theorem front_row (hb : s.m_buffer.buffer1 = some b) :
    s.log.front = (s.m_buffer.buffer_vec ++ [b]).map s.heap := by
  show (_ ++ s.m_buffer.buffer1.toList).map _ = _
  rw [hb]
  rfl

theorem front_eq (hb : s.m_buffer.buffer1 = some b) :
    s.log.front = s.m_buffer.buffer_vec.map s.heap ++ [s.heap b] := by
  rw [front_row hb, List.map_append, List.map_singleton]

/-- The back end does not see what the front does. -/
theorem left_congr {heap : Heap} (h : ∀ a ∈ s.newBuffer.ids, heap a = s.heap a) :
    s.unwritten.map heap = s.log.left :=
  List.map_congr_left fun a ha => h a (unwritten_subset s a ha)

/-- A line is written to the current buffer. -/
theorem log_write (h : Inv s) {line : Line} {full : List Bytes} {current : Bytes}
    (hb : s.m_buffer.buffer1 = some b) (hroom : line.1.length ≤ s.heap.avail b)
    (hfront : s.log.front = full ++ [current]) (producer : Θ → ProducerPc) :
    ({ s.write line.1 with producer := producer, accepted := s.accepted ++ [line] } : State Θ).log =
      { s.log with
        front := full ++ [current ++ line.1]
        accepted := s.accepted ++ [line] } := by
  obtain ⟨-, hvec, hnew⟩ := h.front_ne hb
  rw [front_eq hb] at hfront
  obtain ⟨rfl, hcurrent⟩ := List.append_inj' hfront rfl
  obtain rfl := (List.cons.inj hcurrent).1
  have hs : s.write line.1 = { s with heap := Function.update s.heap b (s.heap b ++ line.1) } := by
    simp only [State.write, hb, append_of_le hroom]
  have hfull : s.m_buffer.buffer_vec.map (Function.update s.heap b (s.heap b ++ line.1)) =
      s.m_buffer.buffer_vec.map s.heap :=
    List.map_congr_left fun a ha => Function.update_of_ne (ne_of_mem_of_not_mem ha hvec) _ _
  have hleft : s.unwritten.map (Function.update s.heap b (s.heap b ++ line.1)) = s.log.left :=
    left_congr fun a ha => Function.update_of_ne (ne_of_mem_of_not_mem ha hnew) _ _
  rw [hs]
  refine Log.ext ?_ rfl hleft rfl rfl rfl
  show (_ ++ s.m_buffer.buffer1.toList).map (Function.update s.heap b _) = _
  rw [hb, List.map_append, hfull, Option.toList_some, List.map_singleton, Function.update_self]

/-- The current buffer is submitted. -/
theorem log_submitBuffer (h : Inv s) :
    s.submitBuffer.log = { s.log with front := s.log.front ++ [[]] } := by
  obtain ⟨b, hb⟩ := Option.isSome_iff_exists.mp h.front
  cases hc : s.m_buffer.buffer2 with
  | some c =>
    have hspare := h.spare c hc
    rw [submitBuffer_spare hb hc, front_row hb]
    refine Log.ext ?_ rfl rfl rfl rfl rfl
    show (_ ++ [b] ++ [c]).map s.heap = _
    rw [List.map_append, List.map_singleton, hspare]
  | none =>
    have hnot : s.fresh ∉ s.m_buffer.ids ++ s.newBuffer.ids := fun hmem =>
      absurd (h.fresh _ hmem) (Nat.lt_irrefl _)
    have hrow : ∀ a ∈ s.m_buffer.buffer_vec ++ [b],
        Function.update s.heap s.fresh [] a = s.heap a := by
      intro a ha
      apply Function.update_of_ne
      rintro rfl
      refine hnot (List.mem_append_left _ ?_)
      rcases List.mem_append.mp ha with ha | ha
      · exact List.mem_append_right _ ha
      · exact List.mem_append_left _ (List.mem_append_left _ (by rw [hb]; exact ha))
    have hleft : s.unwritten.map (Function.update s.heap s.fresh []) = s.log.left :=
      left_congr fun a ha => Function.update_of_ne
        (ne_of_mem_of_not_mem ha fun hmem => hnot (List.mem_append_right _ hmem)) _ _
    rw [submitBuffer_new hb hc, front_row hb]
    refine Log.ext ?_ rfl hleft rfl rfl rfl
    show (_ ++ [b] ++ [s.fresh]).map (Function.update s.heap s.fresh []) = _
    rw [List.map_append, List.map_congr_left hrow, List.map_singleton, Function.update_self]

/-- The locked section of `append`. -/
theorem log_append (h : Inv s) (line : Line) (producer : Θ → ProducerPc) :
    Log.Step s.log
      ({ s.append line.1 with
        producer := producer, accepted := s.accepted ++ [line] } : State Θ).log := by
  obtain ⟨b, hb⟩ := Option.isSome_iff_exists.mp h.front
  by_cases hroom : line.1.length < s.heap.avail b
  · have hs : s.append line.1 = s.write line.1 := by simp only [State.append, hb, if_pos hroom]
    rw [hs, log_write h hb (Nat.le_of_lt hroom) (front_eq hb) producer]
    exact .write (front_eq hb)
  · have hs : s.append line.1 = s.submitBuffer.write line.1 := by
      simp only [State.append, hb, if_neg hroom]
    obtain ⟨hsub, c, hc, hempty⟩ := h.submitBuffer
    have hfront : s.submitBuffer.log.front = s.log.front ++ [[]] := by rw [log_submitBuffer h]
    have hlog := log_write hsub hc (line_le_avail line hempty) hfront producer
    have hrow : s.log.front ++ [line.1] =
        s.m_buffer.buffer_vec.map s.heap ++ [s.heap b, line.1] := by
      rw [front_eq hb, List.append_assoc]
      rfl
    rw [submitBuffer_accepted, log_submitBuffer h, List.nil_append, hrow] at hlog
    rw [hs, hlog]
    refine .next (front_eq hb) ?_
    rw [Heap.avail] at hroom
    omega

/-- The steps of `stop()`. -/
theorem log_stopStep (h : Inv s) (hs : stopStep s = some s') : Log.Step s.log s'.log := by
  have hquiet : ∀ stop : StopPc,
      ((s.stop = .join ∨ s.stop = .returned) → stop = .join ∨ stop = .returned) →
      Log.Step s.log { s.log with stopped := decide (stop = .join ∨ stop = .returned) } := by
    intro stop hstop
    refine .quiet fun hbefore => decide_eq_true (hstop (of_decide_eq_true hbefore))
  unfold stopStep at hs
  cases hstop : s.stop with
  | notCalled =>
    rw [hstop] at hs
    obtain rfl := Option.some.inj hs
    exact hquiet .test (by simp [hstop])
  | test =>
    rw [hstop] at hs
    obtain rfl := Option.some.inj hs
    exact hquiet _ (by simp [hstop])
  | clear =>
    rw [hstop] at hs
    obtain rfl := Option.some.inj hs
    exact hquiet .submit (by simp [hstop])
  | submit =>
    rw [hstop] at hs
    obtain rfl := Option.some.inj hs
    have hlog : ({ s.submitBuffer with stop := .join } : State Θ).log =
        { s.submitBuffer.log with stopped := true } := rfl
    rw [hlog, log_submitBuffer h]
    exact .submit (decide_eq_false (by simp [hstop]))
  | join =>
    simp only [hstop, Option.ite_none_right_eq_some, Option.some.injEq] at hs
    obtain ⟨-, rfl⟩ := hs
    exact hquiet .returned fun _ => .inr rfl
  | returned =>
    rw [hstop] at hs
    exact absurd hs (by simp)

/-- The front is taken over. -/
theorem log_swapBuffers (h : Inv s) {b' c' : Nat} (hnew : s.newBuffer = ⟨some b', some c', []⟩)
    (hempty : s.heap b' = []) (hback : ∀ i, s.back ≠ .write i) :
    Log.Step s.log s.swapBuffers.log := by
  obtain ⟨b, hb⟩ := Option.isSome_iff_exists.mp h.front
  have hleft : s.log.left = [] := by
    show s.unwritten.map s.heap = []
    rw [unwritten_nil hback]
    rfl
  have hlog : s.swapBuffers.log = { s.log with
      front := [[]]
      swapped := s.log.swapped ++ [s.log.front]
      left := keep s.log.front } := by
    rw [front_row hb]
    simp only [State.swapBuffers, hb, hnew]
    refine Log.ext ?_ rfl ?_ rfl rfl rfl
    · show [s.heap b'] = _
      rw [hempty]
    · exact (keep_map s.heap _).symm
  rw [hlog]
  exact .swap hleft

/-- The steps of `run`. -/
theorem log_backStep (h : Inv s) (hs : backStep s = some s') : Log.Step s.log s'.log := by
  have hfailed := (h.backStep hs).failed
  have hquiet : Log.Step s.log s.log := .quiet id
  have hsame : ∀ back, (∀ i, s.back ≠ .write i) → (∀ i, back ≠ .write i) →
      Log.Step s.log ({ s with back := back } : State Θ).log := by
    intro back hbefore hafter
    have hlog : ({ s with back := back } : State Θ).log = s.log := by
      refine Log.ext rfl rfl ?_ rfl rfl rfl
      show List.map s.heap (State.unwritten { s with back := back }) = s.unwritten.map s.heap
      rw [unwritten_nil hbefore, unwritten_nil hafter]
    rw [hlog]
    exact hquiet
  unfold backStep at hs
  cases hback : s.back with
  | test =>
    have hbefore : ∀ i, s.back ≠ .write i := by simp [hback]
    simp only [hback] at hs
    split_ifs at hs
    · obtain rfl := Option.some.inj hs
      exact hsame .lock hbefore (by simp)
    · obtain rfl := Option.some.inj hs
      exact absurd hfailed (by simp)
    · obtain rfl := Option.some.inj hs
      exact hsame .exited hbefore (by simp)
  | lock =>
    have hbefore : ∀ i, s.back ≠ .write i := by simp [hback]
    simp only [hback] at hs
    split_ifs at hs
    · obtain rfl := Option.some.inj hs
      exact hsame .waiting hbefore (by simp)
    · obtain rfl := Option.some.inj hs
      obtain ⟨b', c', hnew, hempty, -⟩ := (backOk_iff hbefore).mp h.back
      exact log_swapBuffers h hnew hempty hbefore
  | waiting =>
    have hbefore : ∀ i, s.back ≠ .write i := by simp [hback]
    simp only [hback] at hs
    obtain rfl := Option.some.inj hs
    obtain ⟨b', c', hnew, hempty, -⟩ := (backOk_iff hbefore).mp h.back
    exact log_swapBuffers h hnew hempty hbefore
  | write i =>
    simp only [hback] at hs
    have hunwritten : s.unwritten = s.newBuffer.buffer_vec.drop i := by
      rw [State.unwritten, hback]
    cases hget : s.newBuffer.buffer_vec[i]? with
    | some b =>
      simp only [hget] at hs
      obtain rfl := Option.some.inj hs
      obtain ⟨hi, hb⟩ := List.getElem?_eq_some_iff.mp hget
      refine .hand ?_
      show s.unwritten.map s.heap = _
      rw [hunwritten, List.drop_eq_getElem_cons hi, hb]
      rfl
    | none =>
      -- `reset` empties buffers of the back end only
      obtain ⟨d, heap, hreset, -, hfront⟩ := h.reset hback hget
      simp only [hget, hreset] at hs
      obtain rfl := Option.some.inj hs
      have hlog : ({ s with newBuffer := d, heap := heap, back := .test } : State Θ).log =
          s.log := by
        refine Log.ext ?_ rfl ?_ rfl rfl rfl
        · refine List.map_congr_left fun a ha => hfront a ?_
          rcases List.mem_append.mp ha with ha | ha
          · exact List.mem_append_right _ ha
          · exact List.mem_append_left _ (List.mem_append_left _ ha)
        · show [] = s.unwritten.map s.heap
          rw [hunwritten, List.drop_eq_nil_of_le (List.getElem?_eq_none_iff.mp hget)]
          rfl
      rw [hlog]
      exact hquiet
  | exited =>
    simp only [hback] at hs
    exact absurd hs (by simp)

/-- **One step.** Nothing else happens to the buffers. -/
theorem log_step [DecidableEq Θ] {a : Action Θ} (h : Inv s) (hs : step s a = some s') :
    Log.Step s.log s'.log := by
  cases a with
  | call θ line =>
    have hlog : s'.log = s.log := by
      cases hp : s.producer θ with
      | idle =>
        simp only [step, hp] at hs
        split_ifs at hs
        all_goals
          obtain rfl := Option.some.inj hs
          rfl
      | lock line' =>
        simp only [step, hp] at hs
        exact absurd hs (by simp)
    rw [hlog]
    exact .quiet id
  | append θ =>
    cases hp : s.producer θ with
    | idle =>
      simp only [step, hp] at hs
      exact absurd hs (by simp)
    | lock line =>
      simp only [step, hp] at hs
      obtain rfl := Option.some.inj hs
      exact log_append h line _
  | back => exact log_backStep h hs
  | stop => exact log_stopStep h hs

end Steps

/-! ### Lines -/

/-- The lines of each buffer: of those that have been taken over, of the row of the front, and of
    those that have been handed over and that are waiting for that. -/
structure Log.Cut (v : Log) (taken : List (List (List Line)))
    (row gone waiting : List (List Line)) : Prop where
  swapped : v.swapped = taken.map (·.map bytes)
  front : v.front = row.map bytes
  accepted : v.accepted = taken.flatten.flatten ++ row.flatten
  kept : (taken.map keep).flatten = gone ++ waiting
  handed : v.handed = bytes gone.flatten
  left : v.left = waiting.map bytes

section Lines

variable {v v' : Log} {taken : List (List (List Line))} {row gone waiting : List (List Line)}

theorem bytes_append (lines lines' : List Line) :
    bytes (lines ++ lines') = bytes lines ++ bytes lines' := by
  rw [bytes, List.map_append, List.flatten_append]
  rfl

theorem map_keep {α β : Type*} (f : α → β) (l : List α) : (keep l).map f = keep (l.map f) := by
  unfold keep
  rw [List.length_map]
  split_ifs
  · exact List.map_take
  · rfl

theorem keep_first {α : Type*} (l : List α) : keep l <+: l := by
  unfold keep
  split_ifs
  · exact List.take_prefix 2 l
  · exact List.prefix_rfl

/-- The current buffer and its lines. -/
theorem Log.Cut.current (h : v.Cut taken row gone waiting) {full : List Bytes} {current : Bytes}
    (hfront : v.front = full ++ [current]) :
    ∃ before lines, row = before ++ [lines] ∧ before.map bytes = full ∧ bytes lines = current := by
  have hrow := h.front.symm.trans hfront
  obtain ⟨before, last, rfl, hbefore, hlast⟩ := List.map_eq_append_iff.mp hrow
  obtain ⟨lines, rest, rfl, hlines, hrest⟩ := List.map_eq_cons_iff.mp hlast
  obtain rfl := List.map_eq_nil_iff.mp hrest
  exact ⟨before, lines, rfl, hbefore, hlines⟩

/-- **Step.** Lines stay as they are. -/
theorem cut_step (h : v.Cut taken row gone waiting) (hs : Log.Step v v') :
    ∃ taken row gone waiting, v'.Cut taken row gone waiting := by
  cases hs with
  | quiet _ => exact ⟨taken, row, gone, waiting, { h with }⟩
  | @write full current line hfront =>
    obtain ⟨before, lines, rfl, rfl, rfl⟩ := h.current hfront
    refine ⟨taken, before ++ [lines ++ [line]], gone, waiting,
      { h with front := ?_, accepted := ?_ }⟩
    · rw [List.map_append, List.map_singleton, bytes_append]
      simp [bytes]
    · simp [h.accepted]
  | @next full current line hfront _ =>
    obtain ⟨before, lines, rfl, rfl, rfl⟩ := h.current hfront
    refine ⟨taken, before ++ [lines, [line]], gone, waiting, { h with front := ?_, accepted := ?_ }⟩
    · simp [bytes]
    · simp [h.accepted]
  | submit _ =>
    refine ⟨taken, row ++ [[]], gone, waiting, { h with front := ?_, accepted := ?_ }⟩
    · show v.front ++ [[]] = _
      rw [h.front, List.map_append]
      rfl
    · simp [h.accepted]
  | swap hleft =>
    have hwaiting : waiting = [] := List.map_eq_nil_iff.mp (h.left.symm.trans hleft)
    refine ⟨taken ++ [row], [[]], gone, keep row, ?_, rfl, ?_, ?_, h.handed, ?_⟩
    · simp [h.swapped, h.front]
    · simp [h.accepted]
    · have hkept := h.kept
      rw [hwaiting, List.append_nil] at hkept
      rw [List.map_append, List.flatten_append, hkept]
      simp
    · show keep v.front = _
      rw [h.front, map_keep]
  | @hand current rest hleft =>
    obtain ⟨lines, waiting, rfl, rfl, rfl⟩ := List.map_eq_cons_iff.mp (h.left.symm.trans hleft)
    refine ⟨taken, row, gone ++ [lines], waiting, { h with kept := ?_, handed := ?_, left := rfl }⟩
    · rw [h.kept, List.append_assoc]
      rfl
    · show v.handed ++ bytes lines = _
      rw [h.handed, List.flatten_append, bytes_append, List.flatten_singleton]

end Lines

variable [DecidableEq Θ]

/-- The lines of the buffers of an appender. -/
theorem cut_reachable {s : State Θ} (h : (system Θ).Reachable s) :
    ∃ taken row gone waiting, s.log.Cut taken row gone waiting := by
  have hboth : Inv s ∧ ∃ taken row gone waiting, s.log.Cut taken row gone waiting := by
    refine h.invariant (I := fun s => Inv s ∧ ∃ taken row gone waiting,
      s.log.Cut taken row gone waiting) ?_ ?_
    · rintro s rfl
      exact ⟨inv_initial, [], [[]], [], [], rfl, rfl, rfl, rfl, rfl, rfl⟩
    · rintro s a s' ⟨hI, taken, row, gone, waiting, hcut⟩ - hs
      exact ⟨inv_step hI hs, cut_step hcut (log_step hI hs)⟩
  exact hboth.2

/-- **Whole lines.** At any moment, what has been handed over consists of whole lines in the order
    in which they were appended; if no swap took over more than 25 buffers, of the first ones. -/
theorem whole_lines {s : State Θ} (h : (system Θ).Reachable s) :
    ∃ lines, s.handed = bytes lines ∧ lines.Sublist s.accepted ∧
      ((∀ buffers ∈ s.swapped, buffers.length ≤ 25) → lines <+: s.accepted) := by
  obtain ⟨taken, row, gone, waiting, hcut⟩ := cut_reachable h
  have hgone : gone <+: (taken.map keep).flatten := by
    rw [hcut.kept]
    exact List.prefix_append _ _
  have haccepted : taken.flatten.flatten <+: s.accepted := by
    rw [show s.accepted = _ from hcut.accepted]
    exact List.prefix_append _ _
  refine ⟨gone.flatten, hcut.handed, ?_, fun hshort => ?_⟩
  · have hkeep : (taken.map keep).flatten.Sublist taken.flatten := by
      have hsub := List.Sublist.flatMap_right taken (f := keep) (g := id) fun l _ =>
        (keep_first l).sublist
      rwa [List.flatMap_id, List.flatMap_def] at hsub
    exact ((hgone.sublist.trans hkeep).flatten).trans haccepted.sublist
  · have hall : taken.map keep = taken := by
      refine (List.map_congr_left fun l hl => ?_).trans (List.map_id taken)
      have hlen := hshort (l.map bytes) (by
        rw [show s.swapped = _ from hcut.swapped]
        exact List.mem_map_of_mem hl)
      rw [List.length_map] at hlen
      rw [keep, if_neg (Nat.not_lt.mpr hlen), id]
    rw [hall] at hgone
    obtain ⟨rest, hrest⟩ := hgone
    refine List.IsPrefix.trans ⟨rest.flatten, ?_⟩ haccepted
    rw [← List.flatten_append, hrest]

/-- Two lines are appended while the back end waits. -/
def twoLines : List (Action Unit) :=
  [.back, .back, .call () ⟨[97, 10], by decide⟩, .append (), .call () ⟨[98, 10], by decide⟩,
    .append (), .back, .back]

theorem whole_lines_twoLines : ∃ s : State Unit,
    (system Unit).exec initial twoLines = some s ∧ s.handed = [97, 10, 98, 10] ∧
      ∃ lines, s.handed = bytes lines ∧ lines.Sublist s.accepted ∧
        ((∀ buffers ∈ s.swapped, buffers.length ≤ 25) → lines <+: s.accepted) := by
  have hr : (system Unit).exec initial twoLines = some _ := rfl
  exact ⟨_, hr, rfl, whole_lines (LTS.reachable_of_exec rfl hr)⟩

section Messages

open Http (chars)
open LogAppender LogFormatter

/-- Some lines of messages are the lines of some messages. -/
theorem sublist_messages {log : List (Surroundings × LogMessage)} {m_pattern : Bytes}
    {lines accepted : List Line} (hlog : accepted.map Subtype.val = log.map (line m_pattern))
    (h : lines.Sublist accepted) :
    ∃ read : List (Surroundings × LogMessage), read.Sublist log ∧
      lines.map Subtype.val = read.map (line m_pattern) := by
  have hsub := h.map Subtype.val
  rw [hlog] at hsub
  exact List.sublist_map_iff.mp hsub

theorem prefix_messages {log : List (Surroundings × LogMessage)} {m_pattern : Bytes}
    {lines accepted : List Line} (hlog : accepted.map Subtype.val = log.map (line m_pattern))
    (h : lines <+: accepted) :
    ∃ read : List (Surroundings × LogMessage), read <+: log ∧
      lines.map Subtype.val = read.map (line m_pattern) := by
  have hpre := h.map Subtype.val
  rw [hlog] at hpre
  obtain ⟨read, hread, heq⟩ := List.prefix_map_iff.mp hpre
  exact ⟨read, hread, heq⟩

/-- **End to end.** The lines are those of messages whose pattern ends with `%n`, have room in a
    stream and are without other newlines: at any moment, what has been handed over, cut at its
    newlines, are the texts of some of the messages in their order; if no swap took over more than
    25 buffers, of the first ones. -/
theorem messages_read {s : State Θ} (h : (system Θ).Reachable s) {m_pattern : Bytes}
    {front : List Token} (hpattern : tokens m_pattern = front ++ [.directive 110])
    {log : List (Surroundings × LogMessage)}
    (hlog : s.accepted.map Subtype.val = log.map (line m_pattern))
    (hwhole : ∀ m ∈ log, Fits (fields m.1 m.2 m_pattern) ∧ 10 ∉ body front m) :
    ∃ read : List (Surroundings × LogMessage),
      s.handed.splitOn 10 = read.map (body front) ++ [[]] ∧ read.Sublist log ∧
      ((∀ buffers ∈ s.swapped, buffers.length ≤ 25) → read <+: log) := by
  obtain ⟨lines, hhanded, hsub, hpre⟩ := whole_lines h
  have hread : ∀ read : List (Surroundings × LogMessage), read.Sublist log →
      lines.map Subtype.val = read.map (line m_pattern) →
      s.handed.splitOn 10 = read.map (body front) ++ [[]] := by
    intro read hread heq
    have hline : ∀ m ∈ read, line m_pattern m = body front m ++ [10] := by
      intro m hm
      rw [← texts_fields hpattern m]
      exact (expected_whole_iff _).mpr (hwhole m (hread.subset hm)).1
    have hnone : ∀ l ∈ read.map (body front), 10 ∉ l := by
      intro l hl
      obtain ⟨m, hm, rfl⟩ := List.mem_map.mp hl
      exact (hwhole m (hread.subset hm)).2
    have hended := Lib.Lines.splitOn_ended hnone []
    rw [List.append_nil, List.flatMap_map, ← List.flatMap_congr hline] at hended
    rw [hhanded, bytes, heq, ← List.flatMap_def, hended]
    rfl
  by_cases hshort : ∀ buffers ∈ s.swapped, buffers.length ≤ 25
  · obtain ⟨read, hfirst, heq⟩ := prefix_messages hlog (hpre hshort)
    exact ⟨read, hread read hfirst.sublist heq, hfirst.sublist, fun _ => hfirst⟩
  · obtain ⟨read, hsome, heq⟩ := sublist_messages hlog hsub
    exact ⟨read, hread read hsome heq, hsome, fun hall => absurd hall hshort⟩

/-- "7:hello" and a newline. -/
def helloLine : Line := ⟨[55, 58, 104, 101, 108, 108, 111, 10], by decide⟩

theorem line_hello : line (chars "%l:%m%n") (worker, hello) = helloLine := by
  rw [line, fields, tokens_short]
  decide

theorem fits_hello : Fits (fields worker hello (chars "%l:%m%n")) := by
  rw [← expected_whole_iff, fields, tokens_short]
  decide

/-- The message "hello" is logged twice. -/
def twoMessagesTrace : List (Action Unit) :=
  [.back, .back, .call () helloLine, .append (), .call () helloLine, .append (), .back, .back]

def twoMessages : State Unit := ((system Unit).exec initial twoMessagesTrace).getD initial

theorem exec_twoMessages : (system Unit).exec initial twoMessagesTrace = some twoMessages := rfl

theorem messages_read_twoMessages : twoMessages.handed = helloLine.1 ++ helloLine.1 ∧
    ∃ read : List (Surroundings × LogMessage), twoMessages.handed.splitOn 10 =
        read.map (body [.directive 108, .literal [58], .directive 109]) ++ [[]] ∧
      read.Sublist [(worker, hello), (worker, hello)] ∧
      ((∀ buffers ∈ twoMessages.swapped, buffers.length ≤ 25) →
        read <+: [(worker, hello), (worker, hello)]) := by
  have haccepted : twoMessages.accepted = [helloLine, helloLine] := rfl
  refine ⟨rfl, messages_read (LTS.reachable_of_exec rfl exec_twoMessages) tokens_short ?_ ?_⟩
  · rw [haccepted, List.map_cons, List.map_singleton, List.map_cons, List.map_singleton, line_hello]
  · have hboth : ∀ m ∈ [(worker, hello), (worker, hello)], m = (worker, hello) := by simp
    intro m hm
    rw [hboth m hm]
    exact ⟨fits_hello, by decide⟩

end Messages

/-! ### Long swaps -/

/-- Less than a line is missing to the size of a buffer. -/
def Full (buffer : Bytes) : Prop := kLargeBuffer ≤ buffer.length + kSmallBuffer

instance : DecidablePred Full := fun _ => Nat.decLe _ _

/-- Behind the current one, `stop()` has submitted one buffer that need not be full. -/
def Log.Filled (v : Log) : Prop :=
  v.front.dropLast.countP (¬Full ·) ≤ (if v.stopped then 1 else 0) ∧
    ∀ buffers ∈ v.swapped, buffers.dropLast.countP (¬Full ·) ≤ 1

theorem countP_dropLast_le {α : Type*} (p : α → Bool) (l : List α) :
    l.countP p ≤ l.dropLast.countP p + 1 := by
  cases l using List.reverseRecOn with
  | nil => exact Nat.zero_le _
  | append_singleton l a =>
    rw [List.dropLast_concat, List.countP_append]
    exact Nat.add_le_add_left List.countP_le_length _

/-- **Step.** A buffer that is not full is not submitted, but by `stop()`. -/
theorem filled_step {v v' : Log} (h : v.Filled) (hs : Log.Step v v') : v'.Filled := by
  obtain ⟨hfront, hswapped⟩ := h
  have hone : v.front.dropLast.countP (¬Full ·) ≤ 1 := by
    split_ifs at hfront <;> omega
  cases hs with
  | @quiet stopped hstop =>
    refine ⟨Nat.le_trans hfront ?_, hswapped⟩
    cases h : v.stopped with
    | false => exact Nat.zero_le _
    | true => simp [hstop h]
  | @write full current line hrow =>
    rw [hrow, List.dropLast_concat] at hfront
    refine ⟨?_, hswapped⟩
    rwa [List.dropLast_concat]
  | @next full current line hrow hfull =>
    rw [hrow, List.dropLast_concat] at hfront
    have hcurrent : Full current := Nat.le_trans hfull (Nat.add_le_add_left line.2 _)
    have hlast : (full ++ [current, line.1]).dropLast = full ++ [current] := by
      rw [show full ++ [current, line.1] = full ++ [current] ++ [line.1] by simp,
        List.dropLast_concat]
    refine ⟨?_, hswapped⟩
    show (full ++ [current, line.1]).dropLast.countP (¬Full ·) ≤ _
    rw [hlast, List.countP_append, List.countP_singleton]
    simpa [hcurrent] using hfront
  | submit hstop =>
    rw [hstop] at hfront
    refine ⟨?_, hswapped⟩
    show (v.front ++ [[]]).dropLast.countP (¬Full ·) ≤ 1
    rw [List.dropLast_concat]
    exact Nat.le_trans (countP_dropLast_le _ _) (Nat.succ_le_succ hfront)
  | swap hleft =>
    refine ⟨Nat.zero_le _, fun buffers hb => ?_⟩
    rcases List.mem_append.mp hb with hb | hb
    · exact hswapped buffers hb
    · obtain rfl := List.mem_singleton.mp hb
      exact hone
  | hand hleft => exact ⟨hfront, hswapped⟩

/-- What the full ones of some buffers hold. -/
theorem le_length_flatten (buffers : List Bytes) :
    buffers.countP (Full ·) * (kLargeBuffer - kSmallBuffer) ≤ buffers.flatten.length := by
  induction buffers with
  | nil => exact Nat.le_of_eq (Nat.zero_mul _)
  | cons b buffers ih =>
    rw [List.countP_cons, List.flatten_cons, List.length_append, Nat.add_mul]
    split_ifs with hfull
    · have hb : kLargeBuffer ≤ b.length + kSmallBuffer := of_decide_eq_true hfull
      omega
    · omega

/-- **Discarding.** A swap of which buffers are discarded has taken over almost a hundred million
    bytes: all of its buffers but two at most were full. -/
theorem discards_many {s : State Θ} (h : (system Θ).Reachable s) {buffers : List Bytes}
    (hb : buffers ∈ s.swapped) :
    keep buffers = buffers ∨ 24 * (kLargeBuffer - kSmallBuffer) ≤ buffers.flatten.length := by
  have hboth : Inv s ∧ s.log.Filled := by
    refine h.invariant (I := fun s => Inv s ∧ s.log.Filled) ?_ ?_
    · rintro s rfl
      exact ⟨inv_initial, Nat.zero_le _, by simp [State.log, initial]⟩
    · rintro s a s' ⟨hI, hfilled⟩ - hs
      exact ⟨inv_step hI hs, filled_step hfilled (log_step hI hs)⟩
  rcases Nat.lt_or_ge 25 buffers.length with hlong | hle
  swap
  · exact .inl (if_neg (Nat.not_lt.mpr hle))
  have hshort := Nat.le_trans (countP_dropLast_le (¬Full ·) buffers)
    (Nat.succ_le_succ (hboth.2.2 buffers hb))
  have hall : buffers.length = buffers.countP (Full ·) + buffers.countP (¬Full ·) := by
    rw [List.length_eq_countP_add_countP (Full ·)]
    simp
  have hfull : 24 ≤ buffers.countP (Full ·) := by omega
  exact .inr (Nat.le_trans (Nat.mul_le_mul_right _ hfull) (le_length_flatten buffers))

theorem discards_many_twoLines : ∃ s : State Unit,
    (system Unit).exec initial twoLines = some s ∧ s.swapped = [[[97, 10, 98, 10]]] ∧
      (keep [[97, 10, 98, 10]] = ([[97, 10, 98, 10]] : List Bytes) ∨
        24 * (kLargeBuffer - kSmallBuffer) ≤ ([[97, 10, 98, 10]] : List Bytes).flatten.length) := by
  have hr : (system Unit).exec initial twoLines = some _ := rfl
  exact ⟨_, hr, rfl, discards_many (LTS.reachable_of_exec rfl hr) (List.mem_singleton_self _)⟩

end LimWebserver.AsyncAppender
