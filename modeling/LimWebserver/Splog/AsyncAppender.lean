import LimWebserver.Lib.Transition
import Mathlib.Data.List.Nodup
import Mathlib.Logic.Function.Basic

namespace LimWebserver.AsyncAppender

open LimWebserver.Lib

/-!
# Splog — `AsyncAppender`: double buffering

Any number of threads append lines to the front buffers, one back-end thread takes these over and
hands them to `m_appender`, one thread may call `stop()`.  Every section locked by
`m_append_mutex`, every hand-over of one buffer and every unlocked read or write of `m_started` is
one step.

* `DoubleBuffer`, `State` — buffer objects are numbers, what they hold is in `heap`;
* `append`, `submitBuffer`, `swapBuffers`, `DoubleBuffer.reset` — the member functions; a failed
  assertion, a null pointer that is followed and `back()` of an empty vector set `failed`;
* `Inv` — who owns which buffer, and where the accepted lines are;
* `reachable_kept` — nothing is lost, duplicated or reordered.
-/

abbrev Bytes := List UInt8

def kSmallBuffer : Nat := 4000

def kLargeBuffer : Nat := 4000 * 1000

/-- A line of the log, as a `LogStream` holds it. -/
abbrev Line := { line : Bytes // line.length ≤ kSmallBuffer }

/-- What the buffers hold. -/
abbrev Heap := Nat → Bytes

/-- `avail()` -/
def Heap.avail (heap : Heap) (b : Nat) : Nat := kLargeBuffer - (heap b).length

/-- `FixedBuffer::append`, which does nothing when there is no room. -/
def Heap.append (heap : Heap) (b : Nat) (buf : Bytes) : Heap :=
  if buf.length ≤ heap.avail b then Function.update heap b (heap b ++ buf) else heap

structure DoubleBuffer where
  /-- the current buffer -/
  buffer1 : Option Nat
  /-- the spare buffer -/
  buffer2 : Option Nat
  /-- the full buffers -/
  buffer_vec : List Nat
  deriving DecidableEq, Repr

namespace DoubleBuffer

/-- The buffer objects that are pointed to. -/
def ids (d : DoubleBuffer) : List Nat := d.buffer1.toList ++ d.buffer2.toList ++ d.buffer_vec

/-- `if (!buffer) { buffer = buffer_vec.back(); buffer_vec.pop_back(); buffer->reset(); }` -/
def recycle (buffer : Option Nat) (buffer_vec : List Nat) (heap : Heap) :
    Option (Option Nat × List Nat × Heap) :=
  match buffer with
  | some b => some (some b, buffer_vec, heap)
  | none =>
    match buffer_vec.getLast? with
    | none => none
    | some b => some (some b, buffer_vec.dropLast, Function.update heap b [])

def reset (d : DoubleBuffer) (heap : Heap) : Option (DoubleBuffer × Heap) :=
  let buffer_vec := if 2 < d.buffer_vec.length then d.buffer_vec.take 2 else d.buffer_vec
  (recycle d.buffer1 buffer_vec heap).bind fun (buffer1, buffer_vec, heap) =>
    (recycle d.buffer2 buffer_vec heap).map fun (buffer2, _, heap) =>
      (⟨buffer1, buffer2, []⟩, heap)

end DoubleBuffer

/-- Program points of `run`. -/
inductive BackPc
  /-- `while (m_started | !m_buffer.empty())` and the assertions -/
  | test
  /-- about to take `m_append_mutex` -/
  | lock
  /-- in `m_cond.waitTime(m_flushInterval)` -/
  | waiting
  /-- `i` buffers of `newBuffer.buffer_vec` are handed over -/
  | write (i : Nat)
  | exited
  deriving DecidableEq, Repr

/-- Program points of a thread in `append`. -/
inductive ProducerPc
  | idle
  /-- `isStarted()` was true; about to take `m_append_mutex` -/
  | lock (line : Line)
  deriving DecidableEq, Repr

/-- Program points of `stop`. -/
inductive StopPc
  | notCalled
  /-- `if (!isStarted()) return;` -/
  | test
  /-- `LogAppender::stop()` -/
  | clear
  /-- the locked section -/
  | submit
  /-- `m_thread->join()` -/
  | join
  | returned
  deriving DecidableEq, Repr

/-- The appender, its threads, and what has happened. -/
structure State (Θ : Type*) where
  m_started : Bool
  heap : Heap
  /-- the next buffer object -/
  fresh : Nat
  m_buffer : DoubleBuffer
  newBuffer : DoubleBuffer
  back : BackPc
  producer : Θ → ProducerPc
  stop : StopPc
  failed : Bool
  /-- the lines appended, in the order of the lock -/
  accepted : List Line
  /-- for each swap, what the buffers held that were taken over -/
  swapped : List (List Bytes)
  /-- the bytes handed to `m_appender` -/
  handed : Bytes
  /-- the lines that had been appended when `stop()` was called -/
  early : List Line

/-- `if (size() > 25) erase(begin() + 2, end())` -/
def keep {α : Type*} (buffer_vec : List α) : List α :=
  if 25 < buffer_vec.length then buffer_vec.take 2 else buffer_vec

variable {Θ : Type*}

namespace State

variable (s : State Θ)

def submitBuffer : State Θ :=
  match s.m_buffer.buffer1 with
  | none => { s with failed := true }
  | some b =>
    match s.m_buffer.buffer2 with
    | some c => { s with m_buffer := ⟨some c, none, s.m_buffer.buffer_vec ++ [b]⟩ }
    | none =>
      -- `m_buffer.buffer1.reset(new Buffer)`
      { s with
        m_buffer := ⟨some s.fresh, none, s.m_buffer.buffer_vec ++ [b]⟩
        heap := Function.update s.heap s.fresh []
        fresh := s.fresh + 1 }

/-- `m_buffer.buffer1->append(logline, len)` -/
def write (line : Bytes) : State Θ :=
  match s.m_buffer.buffer1 with
  | none => { s with failed := true }
  | some b => { s with heap := s.heap.append b line }

/-- The locked section of `append`. -/
def append (line : Bytes) : State Θ :=
  match s.m_buffer.buffer1 with
  | none => { s with failed := true }
  | some b => if line.length < s.heap.avail b then s.write line else s.submitBuffer.write line

/-- The locked section of `run` from `push_back` on, and the `erase` after it. -/
def swapBuffers : State Θ :=
  match s.m_buffer.buffer1 with
  | none => { s with failed := true }
  | some b =>
    let buffer_vec := s.m_buffer.buffer_vec ++ [b]
    -- the two vectors are swapped, and a missing spare is taken from `newBuffer`
    { s with
      m_buffer :=
        { buffer1 := s.newBuffer.buffer1
          buffer2 := s.m_buffer.buffer2.or s.newBuffer.buffer2
          buffer_vec := s.newBuffer.buffer_vec }
      newBuffer :=
        { buffer1 := none
          buffer2 := if s.m_buffer.buffer2.isSome then s.newBuffer.buffer2 else none
          buffer_vec := keep buffer_vec }
      swapped := s.swapped ++ [buffer_vec.map s.heap]
      back := .write 0 }

/-- A buffer that is there and empty. -/
def isEmptyBuffer (b : Option Nat) : Bool :=
  match b with
  | none => false
  | some b => s.heap b = []

end State

/-- The back-end thread. -/
def backStep (s : State Θ) : Option (State Θ) :=
  match s.back with
  | .test =>
    if s.m_started || !s.m_buffer.buffer_vec.isEmpty then
      -- the three assertions
      if s.isEmptyBuffer s.newBuffer.buffer1 && s.isEmptyBuffer s.newBuffer.buffer2 &&
          s.newBuffer.buffer_vec.isEmpty then
        some { s with back := .lock }
      else some { s with failed := true }
    else some { s with back := .exited }
  | .lock =>
    if s.m_buffer.buffer_vec.isEmpty then some { s with back := .waiting } else some s.swapBuffers
  -- notified or not, the front is taken over
  | .waiting => some s.swapBuffers
  | .write i =>
    match s.newBuffer.buffer_vec[i]? with
    | some b => some { s with handed := s.handed ++ s.heap b, back := .write (i + 1) }
    | none =>
      -- `newBuffer.reset()`
      match s.newBuffer.reset s.heap with
      | some (d, heap) => some { s with newBuffer := d, heap := heap, back := .test }
      | none => some { s with failed := true }
  | .exited => none

/-- The thread in `stop()`. -/
def stopStep (s : State Θ) : Option (State Θ) :=
  match s.stop with
  | .notCalled => some { s with stop := .test, early := s.accepted }
  | .test => some { s with stop := if s.m_started then .clear else .returned }
  | .clear => some { s with m_started := false, stop := .submit }
  -- here `m_started` is false, and the back end may have tested it
  | .submit => some { s.submitBuffer with stop := .join }
  | .join => if s.back = .exited then some { s with stop := .returned } else none
  | .returned => none

/-- The steps. -/
inductive Action (Θ : Type*)
  /-- `append` is called and looks at `m_started` -/
  | call (θ : Θ) (line : Line)
  /-- the locked section of `append`, with which it returns -/
  | append (θ : Θ)
  /-- the next step of `run` -/
  | back
  /-- the next step of `stop`, first its call -/
  | stop
  deriving DecidableEq, Repr

def step [DecidableEq Θ] (s : State Θ) : Action Θ → Option (State Θ)
  | .call θ line =>
    match s.producer θ with
    | .idle =>
      if s.m_started then
        some { s with producer := Function.update s.producer θ (.lock line) }
      else some s
    | .lock _ => none
  | .append θ =>
    match s.producer θ with
    | .idle => none
    | .lock line =>
      some { s.append line with
        producer := Function.update s.producer θ .idle
        accepted := s.accepted ++ [line] }
  | .back => backStep s
  | .stop => stopStep s

/-- An appender whose `start()` has created the back-end thread. -/
def initial : State Θ where
  m_started := true
  heap := fun _ => []
  fresh := 4
  m_buffer := ⟨some 0, some 1, []⟩
  newBuffer := ⟨some 2, some 3, []⟩
  back := .test
  producer := fun _ => .idle
  stop := .notCalled
  failed := false
  accepted := []
  swapped := []
  handed := []
  early := []

def system (Θ : Type*) [DecidableEq Θ] : LTS (State Θ) (Action Θ) where
  init := fun s => s = initial
  step := step

/-! ### Nothing is lost -/

/-- What some buffers hold, one after the other. -/
def Heap.contents (heap : Heap) (ids : List Nat) : Bytes := (ids.map heap).flatten

/-- The buffers that the back end still has to hand over. -/
def State.unwritten (s : State Θ) : List Nat :=
  match s.back with
  | .write i => s.newBuffer.buffer_vec.drop i
  | _ => []

def bytes (lines : List Line) : Bytes := (lines.map Subtype.val).flatten

/-- **What the double buffering promises.** -/
structure Kept (s : State Θ) : Prop where
  /-- no assertion fails, no null pointer is followed, no empty vector is popped -/
  failed : s.failed = false
  /-- no buffer object is pointed to twice, by the front and the back end in particular -/
  nodup : (s.m_buffer.ids ++ s.newBuffer.ids).Nodup
  /-- the accepted lines are what has been swapped and what the front holds -/
  accepted : bytes s.accepted =
    s.swapped.flatten.flatten ++ s.heap.contents s.m_buffer.buffer_vec ++
      s.heap.contents s.m_buffer.buffer1.toList
  /-- what has been swapped, without what is discarded, has been handed over or will be next -/
  handed : (s.swapped.map keep).flatten.flatten = s.handed ++ s.heap.contents s.unwritten

/-- The buffers of the back end. -/
def BackOk (s : State Θ) : Prop :=
  match s.back with
  | .write _ =>
    s.newBuffer.buffer1 = none ∧ s.newBuffer.buffer_vec ≠ [] ∧
      (s.newBuffer.buffer2 = none → 2 ≤ s.newBuffer.buffer_vec.length) ∧
      ∀ b, s.newBuffer.buffer2 = some b → s.heap b = []
  | _ =>
    ∃ b c, s.newBuffer = ⟨some b, some c, []⟩ ∧ s.heap b = [] ∧ s.heap c = []

/-- The ownership invariant. -/
structure Inv (s : State Θ) : Prop extends Kept s where
  fresh : ∀ b ∈ s.m_buffer.ids ++ s.newBuffer.ids, b < s.fresh
  front : s.m_buffer.buffer1.isSome
  /-- the spare of the front is empty -/
  spare : ∀ b, s.m_buffer.buffer2 = some b → s.heap b = []
  /-- when the front has used it, there is a full buffer -/
  used : s.m_buffer.buffer2 = none → s.m_buffer.buffer_vec ≠ []
  back : BackOk s

/-! ### Buffers and their contents -/

section Heap

variable {heap heap' : Heap} {b : Nat} {ids : List Nat}

@[simp] theorem contents_nil (heap : Heap) : heap.contents [] = [] := rfl

@[simp] theorem contents_cons (heap : Heap) (b : Nat) (ids : List Nat) :
    heap.contents (b :: ids) = heap b ++ heap.contents ids := rfl

@[simp] theorem contents_append (heap : Heap) (ids ids' : List Nat) :
    heap.contents (ids ++ ids') = heap.contents ids ++ heap.contents ids' := by
  simp [Heap.contents]

theorem contents_congr (h : ∀ b ∈ ids, heap' b = heap b) :
    heap'.contents ids = heap.contents ids := by
  rw [Heap.contents, List.map_congr_left h]
  rfl

/-- Writing to a buffer leaves the others as they are. -/
theorem contents_update (hb : b ∉ ids) (buf : Bytes) :
    Heap.contents (Function.update heap b buf) ids = heap.contents ids :=
  contents_congr fun _ hc => Function.update_of_ne (ne_of_mem_of_not_mem hc hb) _ _

theorem append_of_le {buf : Bytes} (h : buf.length ≤ heap.avail b) :
    heap.append b buf = Function.update heap b (heap b ++ buf) :=
  if_pos h

/-- A line fits in an empty buffer. -/
theorem line_le_avail (line : Line) (h : heap b = []) : line.1.length ≤ heap.avail b := by
  have hline : line.1.length ≤ 4000 := line.2
  rw [Heap.avail, h, kLargeBuffer, List.length_nil]
  omega

end Heap

/-- A list in which nothing occurs more often has no duplicates either. -/
theorem nodup_of_count_le {l l' : List Nat} (h : l.Nodup) (hle : ∀ a, l'.count a ≤ l.count a) :
    l'.Nodup :=
  List.nodup_iff_count_le_one.mpr fun a => Nat.le_trans (hle a) (List.nodup_iff_count_le_one.mp h a)

namespace DoubleBuffer

variable {d : DoubleBuffer} {heap : Heap}

/-- **Recycling.** The vector is long enough for the buffers that are missing. -/
theorem reset_spec (hd : d.buffer1 = none) (hvec : d.buffer_vec ≠ [])
    (hlong : d.buffer2 = none → 2 ≤ d.buffer_vec.length)
    (hempty : ∀ b, d.buffer2 = some b → heap b = []) (hnodup : d.ids.Nodup) :
    ∃ b c heap', d.reset heap = some (⟨some b, some c, []⟩, heap') ∧
      b ∈ d.ids ∧ c ∈ d.ids ∧ b ≠ c ∧ heap' b = [] ∧ heap' c = [] ∧
      ∀ a, a ∉ d.ids → heap' a = heap a := by
  obtain ⟨buffer1, buffer2, buffer_vec⟩ := d
  obtain rfl : buffer1 = none := hd
  cases buffer2 with
  | some c =>
    have hc : heap c = [] := hempty c rfl
    -- the last of the first two full buffers becomes the current one
    obtain ⟨b, hb, hreset⟩ : ∃ b ∈ buffer_vec, reset ⟨none, some c, buffer_vec⟩ heap =
        some (⟨some b, some c, []⟩, Function.update heap b []) := by
      match buffer_vec, hvec with
      | [x], _ => exact ⟨x, by simp, rfl⟩
      | [x, y], _ => exact ⟨y, by simp, rfl⟩
      | x :: y :: z :: rest, _ => exact ⟨y, by simp, by simp [reset, recycle]⟩
    have hne : b ≠ c := by
      rintro rfl
      simp only [ids, Option.toList_none, Option.toList_some, List.nil_append,
        List.singleton_append, List.nodup_cons] at hnodup
      exact hnodup.1 hb
    refine ⟨b, c, _, hreset, by simp [ids, hb], by simp [ids], hne, Function.update_self _ _ _, ?_,
      fun a ha => Function.update_of_ne ?_ _ _⟩
    · rw [Function.update_of_ne hne.symm, hc]
    · rintro rfl
      exact ha (by simp [ids, hb])
  | none =>
    have hlong := hlong rfl
    obtain ⟨b, c, hb, hc, hne, hreset⟩ : ∃ b c, b ∈ buffer_vec ∧ c ∈ buffer_vec ∧ b ≠ c ∧
        reset ⟨none, none, buffer_vec⟩ heap =
          some (⟨some b, some c, []⟩, Function.update (Function.update heap b []) c []) := by
      match buffer_vec, hlong, hnodup with
      | [x, y], _, hnodup =>
        have hne : x ≠ y := by simpa [ids] using hnodup
        exact ⟨y, x, by simp, by simp, hne.symm, rfl⟩
      | x :: y :: z :: rest, _, hnodup =>
        simp only [ids, Option.toList_none, List.nil_append, List.nodup_cons, List.mem_cons,
          not_or] at hnodup
        exact ⟨y, x, by simp, by simp, Ne.symm hnodup.1.1, by simp [reset, recycle]⟩
    refine ⟨b, c, _, hreset, by simp [ids, hb], by simp [ids, hc], hne, ?_,
      Function.update_self _ _ _, fun a ha => ?_⟩
    · rw [Function.update_of_ne hne, Function.update_self]
    · have hab : a ≠ b := by
        rintro rfl
        exact ha (by simp [ids, hb])
      have hac : a ≠ c := by
        rintro rfl
        exact ha (by simp [ids, hc])
      rw [Function.update_of_ne hac, Function.update_of_ne hab]

end DoubleBuffer

/-! ### The front end -/

section Front

variable {s s' : State Θ} {b : Nat}

theorem unwritten_subset (s : State Θ) : ∀ a ∈ s.unwritten, a ∈ s.newBuffer.ids := by
  intro a ha
  unfold State.unwritten at ha
  split at ha
  · exact List.mem_append_right _ (List.mem_of_mem_drop ha)
  · exact absurd ha (List.not_mem_nil)

theorem backOk_congr (hback : s'.back = s.back) (hnew : s'.newBuffer = s.newBuffer)
    (hheap : ∀ a ∈ s.newBuffer.ids, s'.heap a = s.heap a) (h : BackOk s) : BackOk s' := by
  unfold BackOk at h ⊢
  rw [hback, hnew]
  split at h
  · obtain ⟨h1, h2, h3, h4⟩ := h
    refine ⟨h1, h2, h3, fun c hc => ?_⟩
    rw [hheap c (by simp [DoubleBuffer.ids, hc]), h4 c hc]
  · obtain ⟨c, d, hcd, hc, hd⟩ := h
    refine ⟨c, d, hcd, ?_, ?_⟩
    · rw [hheap c (by simp [hcd, DoubleBuffer.ids]), hc]
    · rw [hheap d (by simp [hcd, DoubleBuffer.ids]), hd]

/-- A step that leaves the back end and its buffers alone. -/
theorem Inv.ofFront (h : Inv s) (hback : s'.back = s.back) (hnew : s'.newBuffer = s.newBuffer)
    (hswapped : s'.swapped = s.swapped) (hhanded : s'.handed = s.handed)
    (hfailed : s'.failed = s.failed) (hheap : ∀ a ∈ s.newBuffer.ids, s'.heap a = s.heap a)
    (hnodup : (s'.m_buffer.ids ++ s.newBuffer.ids).Nodup)
    (hfresh : ∀ b ∈ s'.m_buffer.ids ++ s.newBuffer.ids, b < s'.fresh)
    (hfront : s'.m_buffer.buffer1.isSome)
    (hspare : ∀ b, s'.m_buffer.buffer2 = some b → s'.heap b = [])
    (hused : s'.m_buffer.buffer2 = none → s'.m_buffer.buffer_vec ≠ [])
    (haccepted : bytes s'.accepted = s.swapped.flatten.flatten ++
      s'.heap.contents s'.m_buffer.buffer_vec ++ s'.heap.contents s'.m_buffer.buffer1.toList) :
    Inv s' where
  failed := hfailed.trans h.failed
  nodup := by rw [hnew]; exact hnodup
  accepted := by rw [hswapped]; exact haccepted
  handed := by
    have hunwritten : s'.unwritten = s.unwritten := by
      unfold State.unwritten
      rw [hback, hnew]
    rw [hswapped, hhanded, hunwritten, h.handed,
      contents_congr fun a ha => hheap a (unwritten_subset s a ha)]
  fresh := by rw [hnew]; exact hfresh
  front := hfront
  spare := hspare
  used := hused
  back := backOk_congr hback hnew hheap h.back

/-- The current buffer of the front belongs to nobody else. -/
theorem Inv.front_ne (h : Inv s) (hb : s.m_buffer.buffer1 = some b) :
    (∀ c, s.m_buffer.buffer2 = some c → c ≠ b) ∧ b ∉ s.m_buffer.buffer_vec ∧
      b ∉ s.newBuffer.ids := by
  have hn := h.nodup
  rw [DoubleBuffer.ids, hb, Option.toList_some, List.append_assoc, List.append_assoc,
    List.singleton_append, List.nodup_cons, List.mem_append, List.mem_append, not_or, not_or] at hn
  obtain ⟨⟨h2, hvec, hnew⟩, -⟩ := hn
  refine ⟨fun c hc hcb => h2 ?_, hvec, hnew⟩
  rw [hc, hcb]
  exact List.mem_singleton_self b

/-- **A line is written** to the current buffer, which has room for it. -/
theorem Inv.write (h : Inv s) {line : Line} (hb : s.m_buffer.buffer1 = some b)
    (hroom : line.1.length ≤ s.heap.avail b) (producer : Θ → ProducerPc) :
    Inv { s.write line.1 with producer := producer, accepted := s.accepted ++ [line] } := by
  obtain ⟨h2, hvec, hnew⟩ := h.front_ne hb
  have hs : s.write line.1 = { s with heap := Function.update s.heap b (s.heap b ++ line.1) } := by
    simp only [State.write, hb, append_of_le hroom]
  rw [hs]
  refine h.ofFront rfl rfl rfl rfl rfl ?_ h.nodup h.fresh h.front ?_ h.used ?_
  · exact fun a ha => Function.update_of_ne (ne_of_mem_of_not_mem ha hnew) _ _
  · intro c hc
    show Function.update s.heap b _ c = []
    rw [Function.update_of_ne (h2 c hc), h.spare c hc]
  · show bytes (s.accepted ++ [line]) = _ ++ Heap.contents (Function.update s.heap b _) _ ++
      Heap.contents (Function.update s.heap b _) _
    have haccepted := h.accepted
    rw [hb, Option.toList_some, contents_cons, contents_nil, List.append_nil] at haccepted
    rw [contents_update hvec, hb, Option.toList_some, contents_cons, contents_nil,
      Function.update_self, List.append_nil, bytes, List.map_append, List.flatten_append, ← bytes,
      haccepted]
    simp

theorem submitBuffer_spare (hb : s.m_buffer.buffer1 = some b) (hc : s.m_buffer.buffer2 = some c) :
    s.submitBuffer = { s with m_buffer := ⟨some c, none, s.m_buffer.buffer_vec ++ [b]⟩ } := by
  simp only [State.submitBuffer, hb, hc]

theorem submitBuffer_new (hb : s.m_buffer.buffer1 = some b) (hc : s.m_buffer.buffer2 = none) :
    s.submitBuffer = { s with
      m_buffer := ⟨some s.fresh, none, s.m_buffer.buffer_vec ++ [b]⟩
      heap := Function.update s.heap s.fresh []
      fresh := s.fresh + 1 } := by
  simp only [State.submitBuffer, hb, hc]

@[simp] theorem submitBuffer_accepted (s : State Θ) : s.submitBuffer.accepted = s.accepted := by
  unfold State.submitBuffer
  split
  · rfl
  · split <;> rfl

/-- **The current buffer is submitted**, and an empty one takes its place. -/
theorem Inv.submitBuffer (h : Inv s) :
    Inv s.submitBuffer ∧ ∃ c, s.submitBuffer.m_buffer.buffer1 = some c ∧
      s.submitBuffer.heap c = [] := by
  obtain ⟨b, hb⟩ := Option.isSome_iff_exists.mp h.front
  have haccepted := h.accepted
  have hnodup := h.nodup
  have hfresh := h.fresh
  cases hc : s.m_buffer.buffer2 with
  | some c =>
    rw [submitBuffer_spare hb hc]
    refine ⟨h.ofFront rfl rfl rfl rfl rfl (fun _ _ => rfl) ?_ ?_ rfl (by simp) (by simp) ?_, c, rfl,
      h.spare c hc⟩
    · apply nodup_of_count_le hnodup
      intro a
      apply Nat.le_of_eq
      simp only [DoubleBuffer.ids, hb, hc, Option.toList_some, Option.toList_none,
        List.count_append, List.count_nil]
      omega
    · intro a ha
      apply hfresh a
      simp only [DoubleBuffer.ids, hb, hc, Option.toList_some, Option.toList_none, List.mem_append,
        List.mem_singleton, List.not_mem_nil, or_false] at ha ⊢
      tauto
    · rw [hb] at haccepted
      simp [h.spare c hc, haccepted]
  | none =>
    have hnot : s.fresh ∉ s.m_buffer.ids ++ s.newBuffer.ids := fun hmem =>
      absurd (hfresh _ hmem) (Nat.lt_irrefl _)
    have hvec : s.fresh ∉ s.m_buffer.buffer_vec ++ [b] := by
      intro hmem
      refine hnot (List.mem_append_left _ ?_)
      simp only [DoubleBuffer.ids, hb, Option.toList_some, List.mem_append, List.mem_singleton]
        at hmem ⊢
      tauto
    rw [submitBuffer_new hb hc]
    refine ⟨h.ofFront rfl rfl rfl rfl rfl ?_ ?_ ?_ rfl (by simp) (by simp) ?_, s.fresh, rfl,
      Function.update_self _ _ _⟩
    · intro a ha
      have hne : a ≠ s.fresh := by
        rintro rfl
        exact hnot (List.mem_append_right _ ha)
      exact Function.update_of_ne hne _ _
    · have hcons : (s.fresh :: (s.m_buffer.ids ++ s.newBuffer.ids)).Nodup :=
        List.nodup_cons.mpr ⟨hnot, hnodup⟩
      apply nodup_of_count_le hcons
      intro a
      apply Nat.le_of_eq
      simp only [DoubleBuffer.ids, hb, hc, Option.toList_some, Option.toList_none,
        List.count_append, List.count_nil, List.count_cons]
      omega
    · intro a ha
      have hmem : a = s.fresh ∨ a ∈ s.m_buffer.ids ++ s.newBuffer.ids := by
        simp only [DoubleBuffer.ids, hb, hc, Option.toList_some, Option.toList_none,
          List.mem_append, List.mem_singleton, List.not_mem_nil, or_false] at ha ⊢
        tauto
      rcases hmem with rfl | hmem
      · exact Nat.lt_succ_self _
      · exact Nat.lt_succ_of_lt (hfresh a hmem)
    · show _ = _ ++ Heap.contents (Function.update s.heap s.fresh []) _ ++
        Heap.contents (Function.update s.heap s.fresh []) _
      rw [contents_update hvec]
      rw [hb] at haccepted
      simp [haccepted]

/-- The locked section of `append`. -/
theorem Inv.append (h : Inv s) (line : Line) (producer : Θ → ProducerPc) :
    Inv { s.append line.1 with producer := producer, accepted := s.accepted ++ [line] } := by
  obtain ⟨b, hb⟩ := Option.isSome_iff_exists.mp h.front
  by_cases hroom : line.1.length < s.heap.avail b
  · have hs : s.append line.1 = s.write line.1 := by simp only [State.append, hb, if_pos hroom]
    rw [hs]
    exact h.write hb (Nat.le_of_lt hroom) producer
  · have hs : s.append line.1 = s.submitBuffer.write line.1 := by
      simp only [State.append, hb, if_neg hroom]
    obtain ⟨hsub, c, hc, hempty⟩ := h.submitBuffer
    rw [hs, ← submitBuffer_accepted s]
    exact hsub.write hc (line_le_avail line hempty) producer

end Front

/-! ### The back end -/

section Back

variable {s : State Θ} {b c : Nat}

theorem unwritten_nil (hback : ∀ i, s.back ≠ .write i) : s.unwritten = [] := by
  unfold State.unwritten
  split
  · rename_i i hi
    exact absurd hi (hback i)
  · rfl

theorem backOk_iff (hback : ∀ i, s.back ≠ .write i) :
    BackOk s ↔ ∃ b c, s.newBuffer = ⟨some b, some c, []⟩ ∧ s.heap b = [] ∧ s.heap c = [] := by
  unfold BackOk
  split
  · rename_i i hi
    exact absurd hi (hback i)
  · exact Iff.rfl

/-- A step of the back end that moves no buffer. -/
theorem Inv.goOn (h : Inv s) {back : BackPc} (hback : ∀ i, s.back ≠ .write i)
    (hback' : ∀ i, back ≠ .write i) : Inv { s with back := back } := by
  refine ⟨⟨h.failed, h.nodup, h.accepted, ?_⟩, h.fresh, h.front, h.spare, h.used, ?_⟩
  · rw [unwritten_nil hback', ← unwritten_nil hback]
    exact h.handed
  · exact (backOk_iff hback').mpr ((backOk_iff hback).mp h.back)

/-- Discarding buffers discards what they hold. -/
theorem keep_map (heap : Heap) (ids : List Nat) : keep (ids.map heap) = (keep ids).map heap := by
  rw [keep, keep, List.length_map]
  split
  · exact List.map_take.symm
  · rfl

theorem keep_sublist (ids : List Nat) : (keep ids).Sublist ids := by
  unfold keep
  split
  · exact List.take_sublist 2 ids
  · exact List.Sublist.refl ids

/-- At least two of two buffers or more are kept. -/
theorem le_length_keep {ids : List Nat} {n : Nat} (hn : n ≤ 2) (h : n ≤ ids.length) :
    n ≤ (keep ids).length := by
  unfold keep
  split
  · rw [List.length_take]
    omega
  · exact h

/-- **The swap.** The front gets the empty buffer of the back end and, when its spare has been used,
    the spare too. -/
theorem Inv.swapBuffers (h : Inv s) (hnew : s.newBuffer = ⟨some b, some c, []⟩)
    (hb : s.heap b = []) (hc : s.heap c = []) (hunwritten : s.unwritten = []) :
    Inv s.swapBuffers := by
  obtain ⟨x, hx⟩ := Option.isSome_iff_exists.mp h.front
  have hs : s.swapBuffers = { s with
      m_buffer := ⟨some b, s.m_buffer.buffer2.or (some c), []⟩
      newBuffer := ⟨none, if s.m_buffer.buffer2.isSome then some c else none,
        keep (s.m_buffer.buffer_vec ++ [x])⟩
      swapped := s.swapped ++ [(s.m_buffer.buffer_vec ++ [x]).map s.heap]
      back := .write 0 } := by
    simp only [State.swapBuffers, hx, hnew]
  have hsub := keep_sublist (s.m_buffer.buffer_vec ++ [x])
  -- each buffer is pointed to from one place, before and after
  have hcount : ∀ a, ((⟨some b, s.m_buffer.buffer2.or (some c), []⟩ : DoubleBuffer).ids ++
      (⟨none, if s.m_buffer.buffer2.isSome then some c else none,
        keep (s.m_buffer.buffer_vec ++ [x])⟩ : DoubleBuffer).ids).count a ≤
      (s.m_buffer.ids ++ s.newBuffer.ids).count a := by
    intro a
    have hle := hsub.count_le a
    rw [List.count_append] at hle
    rw [hnew]
    cases h2 : s.m_buffer.buffer2 with
    | some d =>
      simp only [DoubleBuffer.ids, hx, h2, Option.some_or, Option.isSome_some, if_true,
        Option.toList_some, Option.toList_none, List.count_append, List.count_nil]
      omega
    | none =>
      simp only [DoubleBuffer.ids, hx, h2, Option.none_or, Option.isSome_none,
        Bool.false_eq_true, if_false, Option.toList_some, Option.toList_none, List.count_append,
        List.count_nil]
      omega
  rw [hs]
  refine ⟨⟨h.failed, nodup_of_count_le h.nodup hcount, ?_, ?_⟩, ?_, rfl, ?_, ?_,
    rfl, ?_, ?_, ?_⟩
  · have haccepted := h.accepted
    rw [hx] at haccepted
    simp [haccepted, Heap.contents, hb]
  · have hhanded := h.handed
    rw [hunwritten, contents_nil, List.append_nil] at hhanded
    show ((s.swapped ++ [_]).map keep).flatten.flatten = s.handed ++ s.heap.contents (List.drop 0 _)
    rw [List.map_append, List.flatten_append, List.flatten_append, hhanded, List.map_singleton,
      keep_map, List.drop_zero, List.flatten_singleton]
    rfl
  · intro a ha
    have hpos := List.count_pos_iff.mpr ha
    exact h.fresh a (List.count_pos_iff.mp (Nat.lt_of_lt_of_le hpos (hcount a)))
  · intro d hd
    show s.heap d = []
    rw [Option.or_eq_some_iff] at hd
    rcases hd with hd | ⟨-, hd⟩
    · exact h.spare d hd
    · rw [← Option.some.inj hd, hc]
  · intro hnone
    simp at hnone
  · refine List.ne_nil_of_length_pos (le_length_keep (by omega) ?_)
    simp
  · -- when both buffers of the back end are in use, the front had used its spare
    intro hnone
    have h2 : s.m_buffer.buffer2 = none := by
      by_cases h2 : s.m_buffer.buffer2.isSome
      · rw [if_pos h2] at hnone
        exact absurd hnone (by simp)
      · exact Option.not_isSome_iff_eq_none.mp h2
    have hvec := List.length_pos_iff.mpr (h.used h2)
    apply le_length_keep (by omega)
    rw [List.length_append, List.length_singleton]
    omega
  · intro d hd
    by_cases h2 : s.m_buffer.buffer2.isSome
    · rw [if_pos h2] at hd
      rw [← Option.some.inj hd, hc]
    · rw [if_neg h2] at hd
      exact absurd hd (by simp)

/-- **One buffer is handed over.** -/
theorem Inv.handOver (h : Inv s) {i : Nat} (hi : s.back = .write i)
    (hb : s.newBuffer.buffer_vec[i]? = some b) :
    Inv { s with handed := s.handed ++ s.heap b, back := .write (i + 1) } := by
  refine ⟨⟨h.failed, h.nodup, h.accepted, ?_⟩, h.fresh, h.front, h.spare, h.used, ?_⟩
  · have hhanded := h.handed
    obtain ⟨hlt, hget⟩ := List.getElem?_eq_some_iff.mp hb
    have hdrop : s.unwritten = b :: s.newBuffer.buffer_vec.drop (i + 1) := by
      unfold State.unwritten
      rw [hi]
      show s.newBuffer.buffer_vec.drop i = _
      rw [List.drop_eq_getElem_cons hlt, hget]
    rw [hdrop, contents_cons] at hhanded
    show _ = (s.handed ++ s.heap b) ++ s.heap.contents (s.newBuffer.buffer_vec.drop (i + 1))
    rw [hhanded, List.append_assoc]
  · have hok := h.back
    unfold BackOk at hok ⊢
    rw [hi] at hok
    exact hok

/-- **The buffers are recycled** when all of them have been handed over. -/
theorem Inv.reset (h : Inv s) {i : Nat} (hi : s.back = .write i)
    (hend : s.newBuffer.buffer_vec[i]? = none) :
    ∃ d heap, s.newBuffer.reset s.heap = some (d, heap) ∧
      Inv { s with newBuffer := d, heap := heap, back := .test } ∧
      ∀ a ∈ s.m_buffer.ids, heap a = s.heap a := by
  have hok := h.back
  unfold BackOk at hok
  rw [hi] at hok
  obtain ⟨h1, hvec, hlong, hempty⟩ := hok
  have hnodup := List.nodup_append.mp h.nodup
  obtain ⟨b, c, heap, hreset, hb, hc, hne, hheapb, hheapc, hheap⟩ :=
    DoubleBuffer.reset_spec h1 hvec hlong hempty hnodup.2.1
  have hfront : ∀ a ∈ s.m_buffer.ids, heap a = s.heap a := fun a ha =>
    hheap a fun hmem => hnodup.2.2 a ha a hmem rfl
  refine ⟨_, heap, hreset, ⟨⟨h.failed, ?_, ?_, ?_⟩, ?_, h.front, ?_, h.used, b, c, rfl, hheapb,
    hheapc⟩, hfront⟩
  · -- the recycled buffers were those of the back end
    refine List.nodup_append.mpr ⟨hnodup.1, by simpa [DoubleBuffer.ids] using hne, ?_⟩
    intro a ha a' ha' heq
    have hmem : a' ∈ s.newBuffer.ids := by
      simp only [DoubleBuffer.ids, Option.toList_some, List.append_nil, List.mem_append,
        List.mem_singleton] at ha'
      rcases ha' with rfl | rfl
      · exact hb
      · exact hc
    exact hnodup.2.2 a ha a' hmem heq
  · show _ = _ ++ heap.contents _ ++ heap.contents _
    rw [contents_congr fun a ha => hfront a (List.mem_append_right _ ha),
      contents_congr fun a ha => hfront a (List.mem_append_left _ (List.mem_append_left _ ha))]
    exact h.accepted
  · have hhanded := h.handed
    have hnil : s.unwritten = [] := by
      unfold State.unwritten
      rw [hi]
      exact List.drop_eq_nil_of_le (List.getElem?_eq_none_iff.mp hend)
    rw [hnil] at hhanded
    exact hhanded
  · intro a ha
    apply h.fresh a
    simp only [DoubleBuffer.ids, Option.toList_some, List.append_nil, List.mem_append,
      List.mem_singleton] at ha
    rcases ha with ha | rfl | rfl
    · apply List.mem_append_left _
      simpa only [DoubleBuffer.ids, List.mem_append] using ha
    · exact List.mem_append_right _ hb
    · exact List.mem_append_right _ hc
  · intro a ha
    show heap a = []
    rw [hfront a (List.mem_append_left _ (List.mem_append_right _ (by rw [ha]; simp)))]
    exact h.spare a ha

/-- **The back-end thread** keeps the invariant. -/
theorem Inv.backStep (h : Inv s) {s' : State Θ} (hs : backStep s = some s') : Inv s' := by
  unfold AsyncAppender.backStep at hs
  cases hback : s.back with
  | write i =>
    simp only [hback] at hs
    cases hget : s.newBuffer.buffer_vec[i]? with
    | some b =>
      simp only [hget] at hs
      obtain rfl := Option.some.inj hs
      exact h.handOver hback hget
    | none =>
      obtain ⟨d, heap, hreset, hinv, -⟩ := h.reset hback hget
      simp only [hget, hreset] at hs
      obtain rfl := Option.some.inj hs
      exact hinv
  | exited =>
    simp only [hback] at hs
    exact absurd hs (by simp)
  | test =>
    have hpc : ∀ i, s.back ≠ .write i := fun i => by rw [hback]; simp
    obtain ⟨b, c, hnew, hb, hc⟩ := (backOk_iff hpc).mp h.back
    -- the three assertions
    have hassert : (s.isEmptyBuffer s.newBuffer.buffer1 && s.isEmptyBuffer s.newBuffer.buffer2 &&
        s.newBuffer.buffer_vec.isEmpty) = true := by
      simp [hnew, State.isEmptyBuffer, hb, hc]
    simp only [hback, hassert, if_true] at hs
    split at hs
    · obtain rfl := Option.some.inj hs
      exact h.goOn hpc (by simp)
    · obtain rfl := Option.some.inj hs
      exact h.goOn hpc (by simp)
  | lock =>
    have hpc : ∀ i, s.back ≠ .write i := fun i => by rw [hback]; simp
    obtain ⟨b, c, hnew, hb, hc⟩ := (backOk_iff hpc).mp h.back
    simp only [hback] at hs
    split at hs
    · obtain rfl := Option.some.inj hs
      exact h.goOn hpc (by simp)
    · obtain rfl := Option.some.inj hs
      exact h.swapBuffers hnew hb hc (unwritten_nil hpc)
  | waiting =>
    have hpc : ∀ i, s.back ≠ .write i := fun i => by rw [hback]; simp
    obtain ⟨b, c, hnew, hb, hc⟩ := (backOk_iff hpc).mp h.back
    simp only [hback] at hs
    obtain rfl := Option.some.inj hs
    exact h.swapBuffers hnew hb hc (unwritten_nil hpc)

end Back

/-! ### Every run -/

section Runs

variable {s s' : State Θ}

/-- A step that touches neither the buffers nor the back end. -/
theorem Inv.ofPc (h : Inv s) (m_started : Bool) (producer : Θ → ProducerPc) (stop : StopPc)
    (early : List Line) :
    Inv { s with m_started := m_started, producer := producer, stop := stop, early := early } :=
  h.ofFront rfl rfl rfl rfl rfl (fun _ _ => rfl) h.nodup h.fresh h.front h.spare h.used h.accepted

/-- **The thread in `stop()`** keeps the invariant. -/
theorem Inv.stopStep (h : Inv s) (hs : stopStep s = some s') : Inv s' := by
  unfold AsyncAppender.stopStep at hs
  split at hs
  · obtain rfl := Option.some.inj hs
    exact h.ofPc s.m_started s.producer .test s.accepted
  · obtain rfl := Option.some.inj hs
    exact h.ofPc s.m_started s.producer _ s.early
  · obtain rfl := Option.some.inj hs
    exact h.ofPc false s.producer .submit s.early
  · obtain rfl := Option.some.inj hs
    exact h.submitBuffer.1.ofPc s.submitBuffer.m_started s.submitBuffer.producer .join
      s.submitBuffer.early
  · split at hs
    · obtain rfl := Option.some.inj hs
      exact h.ofPc s.m_started s.producer .returned s.early
    · exact absurd hs (by simp)
  · exact absurd hs (by simp)

theorem inv_initial : Inv (initial : State Θ) where
  failed := rfl
  nodup := show [0, 1, 2, 3].Nodup by decide
  accepted := rfl
  handed := rfl
  fresh := show ∀ b ∈ [0, 1, 2, 3], b < 4 by decide
  front := rfl
  spare := fun _ _ => rfl
  used := by rintro ⟨⟩
  back := ⟨2, 3, rfl, rfl, rfl⟩

variable [DecidableEq Θ]

/-- **Step lemma.** -/
theorem inv_step {a : Action Θ} (h : Inv s) (hs : step s a = some s') : Inv s' := by
  cases a with
  | call θ line =>
    simp only [step] at hs
    split at hs
    · split at hs
      · obtain rfl := Option.some.inj hs
        exact h.ofPc s.m_started _ s.stop s.early
      · obtain rfl := Option.some.inj hs
        exact h
    · exact absurd hs (by simp)
  | append θ =>
    simp only [step] at hs
    split at hs
    · exact absurd hs (by simp)
    · obtain rfl := Option.some.inj hs
      exact h.append _ _
  | back => exact h.backStep hs
  | stop => exact h.stopStep hs

/-- **Run lemma.** -/
theorem inv_reachable (h : (system Θ).Reachable s) : Inv s :=
  h.invariant (I := Inv) (fun _ h0 => h0 ▸ inv_initial) fun _ _ _ hI _ hs => inv_step hI hs

/-- **Double buffering.** In every run the bytes handed over, those that the back end still holds,
    the full buffers of the front and its current buffer are the accepted lines in order, without
    what a swap of more than 25 buffers discards; no buffer is shared, and no assertion fails. -/
theorem reachable_kept (h : (system Θ).Reachable s) : Kept s :=
  (inv_reachable h).toKept

end Runs

/-- A line is appended, taken over after the wait and handed over. -/
def oneLine : List (Action Unit) :=
  [.call () ⟨[97], by decide⟩, .back, .append (), .back, .back, .back, .back]

theorem reachable_kept_oneLine : ∃ s : State Unit, (system Unit).exec initial oneLine = some s ∧
    s.handed = [97] ∧ Kept s := by
  obtain ⟨s, hs, hhanded⟩ : ∃ s : State Unit, (system Unit).exec initial oneLine = some s ∧
      s.handed = [97] := ⟨_, rfl, rfl⟩
  exact ⟨s, hs, hhanded, reachable_kept (LTS.reachable_of_exec rfl hs)⟩

end LimWebserver.AsyncAppender
