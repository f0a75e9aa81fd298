import LimWebserver.Lib.Transition
import LimWebserver.Coroutine.RunLoop
import Mathlib.Logic.Function.Basic

namespace LimWebserver.ProcessorTasks

open LimWebserver.Lib

/-!
# Coroutine — where the tasks of a processor are

One processor thread executes `run`, and any thread adds tasks and wakes them; each `LFQueue`
operation is one step.  A task that is swapped in comes back in any state, `idle()` returns at any
time, and each `hold()` has its `wake()`, which comes once the task has been swapped in, and may
come before it has swapped out.

* `State`, `step` — the queues and the loop, with what each task is waiting for;
* `Placed` — the places of a task that has been added and has not ended;
* `Conserved` — each such task is at exactly one place, others are nowhere, and the tasks leave
  `m_newQueue` in the order in which they came;
* `reachable_conserved` — in every state before `stop()`.
-/

/-- A processor before `stop()` is called. -/
structure State (τ : Type*) where
  queues : Queues τ
  pc : RunPc Unit
  /-- `m_scheduler->m_started` -/
  m_started : Bool
  /-- has been added by the scheduler -/
  added : τ → Bool
  /-- has swapped out for the last time -/
  ended : τ → Bool
  /-- has swapped out in `hold()`, whose `wake()` is still to come -/
  held : τ → Bool
  /-- the `wake()` for the next `hold()` of the running task has come -/
  early : Bool
  /-- what has been put into `m_newQueue` -/
  queued : List τ
  /-- what has been moved from there to `m_runableQueue` -/
  moved : List τ

/-- The steps. -/
inductive Action (τ : Type*)
  /-- the scheduler adds a new task -/
  | addTask (task : τ)
  /-- `task->wake()` -/
  | wake (task : τ)
  /-- `Scheduler::start` sets `m_started` -/
  | start
  /-- `idle()` returns -/
  | idle
  /-- the next step of `run`; `out` is the state in which the running task swaps out -/
  | run (out : TaskState)
  deriving DecidableEq, Repr

variable {τ : Type*} [DecidableEq τ]

namespace State

variable (s : State τ)

/-- `m_newQueue.enqueue(task)` -/
def enqueue (task : τ) : State τ :=
  { s with queues := s.queues.enqueueNew task, queued := s.queued ++ [task] }

/-- What becomes of a task that swaps out. -/
def swapped (task : τ) (out : TaskState) : State τ :=
  match out with
  | .READY => s
  | .HOLD => { s with held := Function.update s.held task (!s.early), early := false }
  | _ => { s with ended := Function.update s.ended task true }

end State

/-- One step of `run`. -/
def runLoop (s : State τ) (out : TaskState) : Option (State τ) :=
  match s.pc with
  | .idle _ => none
  | .running =>
    -- a task whose `wake()` has come early is on its way into `hold()`
    if s.early = true ∧ out ≠ .HOLD then none
    else
      s.queues.m_curTask.bind fun task =>
        (runStep () (!s.m_started) out .running s.queues).map fun (pc, queues) =>
          { s.swapped task out with pc := pc, queues := queues }
  | pc =>
    (runStep () (!s.m_started) out pc s.queues).map fun (pc', queues) =>
      { s with
        pc := pc'
        queues := queues
        moved := s.moved ++
          match pc with
          | .concatenate _ | .afterIdle => s.queues.m_newQueue
          | _ => [] }

def step (s : State τ) : Action τ → Option (State τ)
  | .addTask task =>
    if s.added task then none
    else some { s.enqueue task with added := Function.update s.added task true }
  | .wake task =>
    if s.held task then
      some { s.enqueue task with held := Function.update s.held task false }
    else if s.pc = .running ∧ s.queues.m_curTask = some task ∧ s.early = false then
      some { s.enqueue task with early := true }
    else none
  | .start => some { s with m_started := true }
  | .idle => if s.pc = .idle () then some { s with pc := .afterIdle } else none
  | .run out => runLoop s out

/-- A processor whose thread has just been created. -/
def initial : State τ where
  queues := Queues.empty
  pc := .outer
  m_started := false
  added := fun _ => false
  ended := fun _ => false
  held := fun _ => false
  early := false
  queued := []
  moved := []

def system (τ : Type*) [DecidableEq τ] : LTS (State τ) (Action τ) where
  init := fun s => s = initial
  step := step

/-! ### The places of a task -/

/-- How often a task is in the queues. -/
def inQueues (q : Queues τ) (task : τ) : Nat :=
  q.m_newQueue.count task + q.m_runableQueue.count task

/-- **The places of a task** that has been added and has not ended. -/
inductive Placed (s : State τ) (task : τ) : Prop
  /-- it is current, and queued when its `wake()` came early -/
  | current (hcur : s.queues.m_curTask = some task) (hheld : s.held task = false)
      (hqueued : inQueues s.queues task = if s.early then 1 else 0)
  /-- it is queued, once -/
  | queued (hcur : s.queues.m_curTask ≠ some task) (hheld : s.held task = false)
      (hqueued : inQueues s.queues task = 1)
  /-- it has held, and its `wake()` is still to come -/
  | held (hcur : s.queues.m_curTask ≠ some task) (hheld : s.held task = true)
      (hqueued : inQueues s.queues task = 0)

/-- **What the processor promises.** -/
structure Conserved (s : State τ) : Prop where
  placed : ∀ task, s.added task = true → s.ended task = false → Placed s task
  /-- a task that has not been added, or has ended, is nowhere -/
  gone : ∀ task, s.added task = false ∨ s.ended task = true →
    s.queues.m_curTask ≠ some task ∧ s.held task = false ∧ inQueues s.queues task = 0
  /-- an early `wake()` is that of a running task -/
  early : s.early = true → s.pc = .running
  /-- the tasks leave `m_newQueue` in the order in which they came -/
  order : s.queued = s.moved ++ s.queues.m_newQueue

/-- Whether a task is current, held, alive. -/
def isCurrent (q : Queues τ) (task : τ) : Nat := if q.m_curTask = some task then 1 else 0

def State.isHeld (s : State τ) (task : τ) : Nat := if s.held task then 1 else 0

def State.isAlive (s : State τ) (task : τ) : Nat := if s.added task && !s.ended task then 1 else 0

/-- The invariant, as an account for each task. -/
structure Inv (s : State τ) : Prop where
  account : ∀ task, inQueues s.queues task + isCurrent s.queues task + s.isHeld task =
    s.isAlive task + if s.early then isCurrent s.queues task else 0
  current : ∀ task, s.queues.m_curTask = some task →
    s.added task = true ∧ s.ended task = false ∧ s.held task = false
  /-- between two tasks there is no current one -/
  pc : s.queues.m_curTask ≠ none → s.pc = .test ∨ s.pc = .inner ∨ s.pc = .running
  early : s.early = true → s.pc = .running
  started : s.pc = .outer ∨ s.pc = .exited ∨ s.m_started = true
  ended : ∀ task, s.ended task = true → s.added task = true
  order : s.queued = s.moved ++ s.queues.m_newQueue

theorem Inv.conserved {s : State τ} (h : Inv s) : Conserved s := by
  refine ⟨fun task ha he => ?_, fun task hgone => ?_, h.early, h.order⟩
  · -- of a task that is alive the account leaves exactly one place
    have hacc := h.account task
    have halive : s.isAlive task = 1 := by rw [State.isAlive, ha, he]; rfl
    rw [halive] at hacc
    by_cases hc : s.queues.m_curTask = some task
    · have hheld := (h.current task hc).2.2
      have hcur : isCurrent s.queues task = 1 := if_pos hc
      have hno : s.isHeld task = 0 := by rw [State.isHeld, hheld]; rfl
      rw [hcur, hno] at hacc
      exact .current hc hheld (by omega)
    · have hcur : isCurrent s.queues task = 0 := if_neg hc
      rw [hcur, ite_self] at hacc
      cases hheld : s.held task with
      | true =>
        have hyes : s.isHeld task = 1 := by rw [State.isHeld, hheld]; rfl
        exact .held hc hheld (by omega)
      | false =>
        have hno : s.isHeld task = 0 := by rw [State.isHeld, hheld]; rfl
        exact .queued hc hheld (by omega)
  · -- of any other task it leaves none
    have hacc := h.account task
    have halive : s.isAlive task = 0 := by
      rcases hgone with ha | he
      · rw [State.isAlive, ha]; rfl
      · rw [State.isAlive, he, Bool.not_true, Bool.and_false]; rfl
    have hc : s.queues.m_curTask ≠ some task := by
      intro hc
      obtain ⟨ha, he, -⟩ := h.current task hc
      rcases hgone with hgone | hgone
      · rw [ha] at hgone; exact absurd hgone (by simp)
      · rw [he] at hgone; exact absurd hgone (by simp)
    have hcur : isCurrent s.queues task = 0 := if_neg hc
    rw [halive, hcur, ite_self] at hacc
    refine ⟨hc, ?_, by omega⟩
    by_contra hheld
    have hyes : s.isHeld task = 1 := if_pos (by simpa using hheld)
    omega

/-! ### What a step moves -/

section Moves

variable {s s' : State τ} {q : Queues τ} {task : τ}

theorem inQueues_enqueueNew (q : Queues τ) (task t : τ) :
    inQueues (q.enqueueNew task) t = inQueues q t + if task = t then 1 else 0 := by
  show (q.m_newQueue ++ [task]).count t + q.m_runableQueue.count t = _
  rw [List.count_append, List.count_singleton]
  simp only [inQueues, beq_iff_eq]
  omega

theorem inQueues_concatenate (q : Queues τ) (t : τ) : inQueues q.concatenate t = inQueues q t := by
  show ([] : List τ).count t + (q.m_runableQueue ++ q.m_newQueue).count t = _
  rw [List.count_append, List.count_nil, inQueues]
  omega

/-- What `m_runableQueue.dequeue(m_curTask)` leaves behind. -/
def dequeued (q : Queues τ) (task : τ) (rest : List τ) : Queues τ :=
  { q with m_runableQueue := rest, m_curTask := some task }

/-- A task that is dequeued is current instead. -/
theorem inQueues_dequeue {rest : List τ} (hq : q.m_runableQueue = task :: rest) (t : τ) :
    inQueues q t = inQueues (dequeued q task rest) t + if task = t then 1 else 0 := by
  show _ + q.m_runableQueue.count t = q.m_newQueue.count t + rest.count t + _
  rw [hq, List.count_cons]
  simp only [beq_iff_eq]
  omega

/-- The account of a task whose places do not change. -/
theorem Inv.account_congr (h : Inv s) {t : τ} (hq : inQueues s'.queues t = inQueues s.queues t)
    (hcur : s'.queues.m_curTask = s.queues.m_curTask) (hheld : s'.held t = s.held t)
    (hadded : s'.added t = s.added t) (hended : s'.ended t = s.ended t)
    (hearly : s'.early = s.early) : inQueues s'.queues t + isCurrent s'.queues t + s'.isHeld t =
      s'.isAlive t + if s'.early then isCurrent s'.queues t else 0 := by
  have hacc := h.account t
  unfold isCurrent State.isHeld State.isAlive at hacc ⊢
  rw [hq, hcur, hheld, hadded, hended, hearly]
  exact hacc

/-- **The scheduler adds a task.** -/
theorem Inv.addTask (h : Inv s) (hadded : s.added task = false) :
    Inv { s.enqueue task with added := Function.update s.added task true } := by
  obtain ⟨hcur, hheld, hq⟩ := h.conserved.gone task (.inl hadded)
  have hended : s.ended task = false := by
    by_contra he
    rw [h.ended task (by simpa using he)] at hadded
    exact absurd hadded (by simp)
  refine ⟨fun t => ?_, fun t ht => ?_, h.pc, h.early, h.started, fun t ht => ?_, ?_⟩
  · by_cases ht : t = task
    · -- it was nowhere, and is in `m_newQueue` and alive now
      have hno : isCurrent (s.queues.enqueueNew task) task = 0 := if_neg hcur
      rw [ht]
      show inQueues (s.queues.enqueueNew task) task + isCurrent (s.queues.enqueueNew task) task +
        (if s.held task then 1 else 0) =
          (if Function.update s.added task true task && !s.ended task then 1 else 0) +
            if s.early then isCurrent (s.queues.enqueueNew task) task else 0
      rw [inQueues_enqueueNew, hq, hno, hheld, Function.update_self, hended, ite_self, if_pos rfl]
      rfl
    · refine h.account_congr ?_ rfl rfl (Function.update_of_ne ht _ _) rfl rfl
      show inQueues (s.queues.enqueueNew task) t = _
      rw [inQueues_enqueueNew, if_neg (Ne.symm ht), Nat.add_zero]
  · obtain ⟨ha, he, hh⟩ := h.current t ht
    refine ⟨?_, he, hh⟩
    show Function.update s.added task true t = true
    by_cases htask : t = task
    · rw [htask, Function.update_self]
    · rw [Function.update_of_ne htask, ha]
  · show Function.update s.added task true t = true
    by_cases htask : t = task
    · rw [htask, Function.update_self]
    · rw [Function.update_of_ne htask, h.ended t ht]
  · show s.queued ++ [task] = s.moved ++ (s.queues.m_newQueue ++ [task])
    rw [h.order, List.append_assoc]

/-- **A held task is woken.** -/
theorem Inv.wakeHeld (h : Inv s) (hheld : s.held task = true) :
    Inv { s.enqueue task with held := Function.update s.held task false } := by
  have hcur : s.queues.m_curTask ≠ some task := by
    intro hc
    rw [(h.current task hc).2.2] at hheld
    exact absurd hheld (by simp)
  refine ⟨fun t => ?_, fun t ht => ?_, h.pc, h.early, h.started, h.ended, ?_⟩
  · by_cases ht : t = task
    · -- it is in `m_newQueue` instead of held
      have hacc := h.account task
      have hno : isCurrent s.queues task = 0 := if_neg hcur
      have hyes : s.isHeld task = 1 := if_pos hheld
      rw [hno, hyes, ite_self] at hacc
      rw [ht]
      show inQueues (s.queues.enqueueNew task) task + isCurrent s.queues task +
        (if Function.update s.held task false task then 1 else 0) =
          s.isAlive task + if s.early then isCurrent s.queues task else 0
      rw [inQueues_enqueueNew, hno, Function.update_self, ite_self, if_pos rfl,
        if_neg Bool.false_ne_true]
      omega
    · refine h.account_congr ?_ rfl (Function.update_of_ne ht _ _) rfl rfl rfl
      show inQueues (s.queues.enqueueNew task) t = _
      rw [inQueues_enqueueNew, if_neg (Ne.symm ht), Nat.add_zero]
  · obtain ⟨ha, he, hh⟩ := h.current t ht
    have hne : t ≠ task := fun heq => hcur (heq ▸ ht)
    exact ⟨ha, he, (Function.update_of_ne hne _ _).trans hh⟩
  · show s.queued ++ [task] = s.moved ++ (s.queues.m_newQueue ++ [task])
    rw [h.order, List.append_assoc]

/-- **The running task is woken early.** -/
theorem Inv.wakeEarly (h : Inv s) (hpc : s.pc = .running)
    (hcur : s.queues.m_curTask = some task) (hearly : s.early = false) :
    Inv { s.enqueue task with early := true } := by
  refine ⟨fun t => ?_, h.current, h.pc, fun _ => hpc, h.started, h.ended, ?_⟩
  · -- it is in the queues once more, and its early wake counts for that
    have hacc := h.account t
    rw [hearly, if_neg Bool.false_ne_true] at hacc
    have hcurt : isCurrent s.queues t = if task = t then 1 else 0 := by
      simp only [isCurrent, hcur, Option.some.injEq]
    show inQueues (s.queues.enqueueNew task) t + isCurrent s.queues t + s.isHeld t =
      s.isAlive t + if true then isCurrent s.queues t else 0
    rw [inQueues_enqueueNew, if_pos rfl, ← hcurt]
    omega
  · show s.queued ++ [task] = s.moved ++ (s.queues.m_newQueue ++ [task])
    rw [h.order, List.append_assoc]

/-- Only a running task is woken early. -/
theorem Inv.early_eq_false (h : Inv s) (hpc : s.pc ≠ .running) : s.early = false := by
  by_contra he
  exact hpc (h.early (by simpa using he))

/-- Tasks that move between the queues. -/
theorem Inv.relocate (h : Inv s) (hpc : s.pc ≠ .running) {pc : RunPc Unit} {moved : List τ}
    (hq : ∀ t, inQueues q t = inQueues s.queues t) (hcur : q.m_curTask = s.queues.m_curTask)
    (hnone : q.m_curTask ≠ none → pc = .test ∨ pc = .inner ∨ pc = .running)
    (hstarted : pc = .outer ∨ pc = .exited ∨ s.m_started = true)
    (horder : s.queued = moved ++ q.m_newQueue) :
    Inv { s with pc := pc, queues := q, moved := moved } := by
  have hearly := h.early_eq_false hpc
  refine ⟨fun t => h.account_congr (hq t) hcur rfl rfl rfl rfl, fun t ht => ?_, hnone,
    fun he => ?_, hstarted, h.ended, horder⟩
  · exact h.current t (hcur ▸ ht)
  · exact absurd (hearly.symm.trans he) (by simp)

/-- **A task is dequeued** when there is no current one. -/
theorem Inv.dequeue (h : Inv s) (hpc : s.pc ≠ .running) {rest : List τ}
    (hq : s.queues.m_runableQueue = task :: rest) (hnone : s.queues.m_curTask = none)
    {pc : RunPc Unit} (hpc' : pc = .test ∨ pc = .inner) (hstarted : s.m_started = true) :
    Inv { s with pc := pc, queues := dequeued s.queues task rest, moved := s.moved ++ [] } := by
  have hearly := h.early_eq_false hpc
  have hacc : ∀ t, inQueues s.queues t + s.isHeld t = s.isAlive t := by
    intro t
    have hacc := h.account t
    have hno : isCurrent s.queues t = 0 := if_neg (by rw [hnone]; simp)
    rwa [hno, ite_self] at hacc
  refine ⟨fun t => ?_, fun t ht => ?_, fun _ => hpc'.elim .inl fun h => .inr (.inl h),
    fun he => absurd (hearly.symm.trans he) (by simp), .inr (.inr hstarted), h.ended, ?_⟩
  · -- it is current instead of queued
    have hcur : isCurrent (dequeued s.queues task rest) t = if task = t then 1 else 0 := by
      simp only [isCurrent, dequeued, Option.some.injEq]
    have hin := inQueues_dequeue hq t
    have ht := hacc t
    show inQueues (dequeued s.queues task rest) t + isCurrent (dequeued s.queues task rest) t +
      s.isHeld t = s.isAlive t + if s.early then _ else 0
    rw [hcur, hearly, if_neg Bool.false_ne_true]
    omega
  · -- a queued task is alive and has not held
    have htask : task = t := Option.some.inj ht
    have hin := inQueues_dequeue hq t
    have hacct := hacc t
    rw [if_pos htask] at hin
    have hheld : s.isHeld t = 0 ∧ s.isAlive t = 1 := by
      have hle : s.isAlive t ≤ 1 := by unfold State.isAlive; split <;> omega
      omega
    obtain ⟨hheld, halive⟩ := hheld
    unfold State.isHeld at hheld
    unfold State.isAlive at halive
    obtain ⟨ha, he⟩ : s.added t = true ∧ s.ended t = false := by simpa using halive
    exact ⟨ha, he, by simpa using hheld⟩
  · rw [List.append_nil]; exact h.order

/-- **`getNextTask`** dequeues a task when there is no current one, or finds none. -/
theorem Inv.getNextTask (h : Inv s) (hrun : s.pc ≠ .running) (hnone : s.queues.m_curTask = none)
    (hst : s.m_started = true) {flag : Bool}
    (hpc : s.pc = .dequeue flag ∨ s.pc = .dequeueAgain flag) {out : TaskState} {pc : RunPc Unit}
    (hs : runStep () (!s.m_started) out s.pc s.queues = some (pc, q)) :
    Inv { s with pc := pc, queues := q, moved := s.moved ++ [] } := by
  rcases runStep_dequeue hpc hs with ⟨task, rest, hq, rfl, rfl⟩ | rfl
  · exact h.dequeue hrun hq hnone (by cases flag <;> simp [RunPc.caller]) hst
  · apply h.relocate hrun (fun _ => rfl) rfl (absurd hnone) (.inr (.inr hst))
    rw [List.append_nil, h.order]

/-- **A `concatenate`** when there is no current task. -/
theorem Inv.concatenate (h : Inv s) (hrun : s.pc ≠ .running) (hnone : s.queues.m_curTask = none)
    {pc : RunPc Unit} (hstarted : pc = .outer ∨ pc = .exited ∨ s.m_started = true) (r : Nat) :
    Inv { s with
      pc := pc
      queues := { s.queues.concatenate with m_addNewRemain := r }
      moved := s.moved ++ s.queues.m_newQueue } := by
  refine h.relocate hrun (fun t => inQueues_concatenate s.queues t) rfl (absurd hnone) hstarted ?_
  show s.queued = (s.moved ++ s.queues.m_newQueue) ++ []
  rw [List.append_nil, h.order]

/-- **The next step of `run`** while no task runs. -/
theorem Inv.loop (h : Inv s) (hrun : s.pc ≠ .running) {out : TaskState} {pc : RunPc Unit}
    (hs : runStep () (!s.m_started) out s.pc s.queues = some (pc, q)) :
    Inv { s with
      pc := pc
      queues := q
      moved := s.moved ++
        match s.pc with
        | .concatenate _ | .afterIdle => s.queues.m_newQueue
        | _ => [] } := by
  have hcur : s.pc ≠ .test → s.pc ≠ .inner → s.queues.m_curTask = none := by
    intro htest hinner
    by_contra hne
    exact (h.pc hne).elim htest fun hpc => hpc.elim hinner hrun
  have horder : s.queued = (s.moved ++ []) ++ s.queues.m_newQueue := by
    rw [List.append_nil, h.order]
  have hstarted : s.pc ≠ .outer → s.pc ≠ .exited → s.m_started = true := fun ho he =>
    h.started.elim (absurd · ho) fun hst => hst.elim (absurd · he) id
  cases hpc : s.pc with
  | outer =>
    rw [hpc] at hs hcur
    simp only [runStep, Option.some.injEq, Prod.mk.injEq] at hs
    obtain ⟨rfl, rfl⟩ := hs
    have hnone := hcur (by simp) (by simp)
    refine h.relocate hrun (fun _ => rfl) rfl (absurd hnone) ?_ horder
    cases s.m_started
    · exact .inr (.inl rfl)
    · exact .inr (.inr rfl)
  | dequeue flag =>
    rw [hpc] at hcur hstarted
    have hnone := hcur (by simp) (by simp)
    exact h.getNextTask hrun hnone (hstarted (by simp) (by simp)) (.inl hpc) hs
  | concatenate flag =>
    rw [hpc] at hs hcur hstarted
    simp only [runStep, Option.some.injEq, Prod.mk.injEq] at hs
    obtain ⟨rfl, rfl⟩ := hs
    have hnone := hcur (by simp) (by simp)
    exact h.concatenate hrun hnone (.inr (.inr (hstarted (by simp) (by simp)))) _
  | dequeueAgain flag =>
    rw [hpc] at hcur hstarted
    have hnone := hcur (by simp) (by simp)
    exact h.getNextTask hrun hnone (hstarted (by simp) (by simp)) (.inr hpc) hs
  | test =>
    -- `m_garbageList` and `m_addNewRemain` are no places of a task
    rw [hpc] at hs hstarted
    have hst := hstarted (by simp) (by simp)
    simp only [runStep] at hs
    split at hs
    all_goals
      rename_i hq
      simp only [Option.some.injEq, Prod.mk.injEq] at hs
      obtain ⟨rfl, rfl⟩ := hs
    · exact h.relocate hrun (fun _ => rfl) rfl (absurd hq) (.inr (.inr hst)) horder
    · exact h.relocate hrun (fun _ => rfl) rfl (fun _ => .inr (.inl rfl)) (.inr (.inr hst)) horder
  | inner =>
    rw [hpc] at hs hstarted
    have hst := hstarted (by simp) (by simp)
    simp only [runStep, hst, Bool.not_true, Bool.not_false, Bool.and_true, Option.some.injEq,
      Prod.mk.injEq] at hs
    obtain ⟨rfl, rfl⟩ := hs
    -- with a current task and `m_started` the test switches to the task
    refine h.relocate hrun (fun _ => rfl) rfl (fun hne => ?_) (.inr (.inr hst)) horder
    rw [if_pos (Option.isSome_iff_ne_none.mpr hne)]
    exact .inr (.inr rfl)
  | afterIdle =>
    rw [hpc] at hs hcur
    simp only [runStep, Option.some.injEq, Prod.mk.injEq] at hs
    obtain ⟨rfl, rfl⟩ := hs
    have hnone := hcur (by simp) (by simp)
    exact h.concatenate hrun hnone (.inl rfl) s.queues.m_addNewRemain
  | running => exact absurd hpc hrun
  | idle i => rw [hpc] at hs; simp [runStep] at hs
  | exited => rw [hpc] at hs; simp [runStep] at hs

/-- The account when no task is current. -/
theorem inv_of_none (hcur : s.queues.m_curTask = none) (hearly : s.early = false)
    (hstarted : s.m_started = true)
    (hacc : ∀ t, inQueues s.queues t + s.isHeld t = s.isAlive t)
    (hended : ∀ t, s.ended t = true → s.added t = true)
    (horder : s.queued = s.moved ++ s.queues.m_newQueue) : Inv s := by
  refine ⟨fun t => ?_, fun t ht => ?_, fun hne => absurd hcur hne, fun he => ?_,
    .inr (.inr hstarted), hended, horder⟩
  · have hno : isCurrent s.queues t = 0 := if_neg (by rw [hcur]; simp)
    rw [hno, ite_self]
    exact hacc t
  · exact absurd (hcur.symm.trans ht) (by simp)
  · exact absurd (hearly.symm.trans he) (by simp)

/-- A task that swaps out for the last time. -/
theorem Inv.swapEnd (h : Inv s) (hcur : s.queues.m_curTask = some task) (hearly : s.early = false)
    (hstarted : s.m_started = true) {garbage : List τ} :
    Inv { s with
      pc := .dequeue false
      queues := { s.queues with m_garbageList := garbage, m_curTask := none }
      ended := Function.update s.ended task true } := by
  obtain ⟨hadded, hended, -⟩ := h.current task hcur
  refine inv_of_none rfl hearly hstarted (fun t => ?_) (fun t ht => ?_) h.order
  · have hacc := h.account t
    rw [hearly, if_neg Bool.false_ne_true] at hacc
    show inQueues s.queues t + s.isHeld t =
      if s.added t && !Function.update s.ended task true t then 1 else 0
    by_cases ht : t = task
    · -- it was current, and is neither that nor alive any more
      have hyes : isCurrent s.queues t = 1 := if_pos (ht ▸ hcur)
      have halive : s.isAlive t = 1 := if_pos (by rw [ht, hadded, hended]; rfl)
      rw [ht, Function.update_self, Bool.not_true, Bool.and_false, if_neg Bool.false_ne_true, ← ht]
      omega
    · have hno : isCurrent s.queues t = 0 :=
        if_neg fun hc => ht (Option.some.inj (hc.symm.trans hcur))
      rw [Function.update_of_ne ht]
      rwa [hno] at hacc
  · by_cases htask : t = task
    · exact htask ▸ hadded
    · exact h.ended t ((Function.update_of_ne htask _ _).symm.trans ht)

/-- **The running task swaps out.** -/
theorem Inv.swapOut (h : Inv s) (hpc : s.pc = .running) (hcur : s.queues.m_curTask = some task)
    {out : TaskState} (hout : ¬ (s.early = true ∧ out ≠ .HOLD)) :
    Inv { s.swapped task out with
      pc := .dequeue false, queues := s.queues.swapOut task out } := by
  have hstarted : s.m_started = true := by simpa [hpc] using h.started
  have hearly : out ≠ .HOLD → s.early = false := fun hne => by
    by_contra he
    exact hout ⟨by simpa using he, hne⟩
  have hcurt : ∀ t, isCurrent s.queues t = if task = t then 1 else 0 := fun t => by
    simp only [isCurrent, hcur, Option.some.injEq]
  cases out with
  | READY =>
    -- it is queued again by the processor itself
    refine inv_of_none rfl (hearly (by simp)) hstarted (fun t => ?_) h.ended h.order
    have hacc := h.account t
    rw [hearly (by simp), if_neg Bool.false_ne_true, hcurt t] at hacc
    show s.queues.m_newQueue.count t + (s.queues.m_runableQueue ++ [task]).count t + s.isHeld t =
      s.isAlive t
    rw [List.count_append, List.count_singleton]
    simp only [inQueues, beq_iff_eq] at hacc ⊢
    omega
  | HOLD =>
    refine inv_of_none rfl rfl hstarted (fun t => ?_) h.ended h.order
    have hacc := h.account t
    show inQueues s.queues t + (if Function.update s.held task (!s.early) t then 1 else 0) =
      s.isAlive t
    by_cases ht : t = task
    · -- it is queued already when its `wake()` has come
      have hno : s.isHeld t = 0 := if_neg (by rw [ht, (h.current task hcur).2.2]; simp)
      rw [hcurt t, hno, if_pos ht.symm] at hacc
      rw [ht, Function.update_self, ← ht]
      cases he : s.early with
      | true => rw [he] at hacc; simpa using hacc
      | false => rw [he] at hacc; simpa using hacc
    · rw [hcurt t, if_neg (Ne.symm ht), ite_self] at hacc
      rw [Function.update_of_ne ht]
      exact hacc
  | TERM => exact h.swapEnd hcur (hearly (by simp)) hstarted
  | EXCEPT => exact h.swapEnd hcur (hearly (by simp)) hstarted
  | EXEC => exact h.swapEnd hcur (hearly (by simp)) hstarted

end Moves

/-! ### Whole runs -/

theorem inv_initial : Inv (initial : State τ) := by
  refine ⟨fun t => ?_, fun t ht => ?_, fun hne => absurd rfl hne, by rintro ⟨⟩, .inl rfl, nofun,
    rfl⟩
  · rfl
  · exact absurd ht (by rintro ⟨⟩)

/-- The loop while no task runs. -/
theorem runLoop_of_ne {s : State τ} {out : TaskState} (hpc : s.pc ≠ .running) :
    runLoop s out = (runStep () (!s.m_started) out s.pc s.queues).map fun (pc', queues) =>
      { s with
        pc := pc'
        queues := queues
        moved := s.moved ++
          match s.pc with
          | .concatenate _ | .afterIdle => s.queues.m_newQueue
          | _ => [] } := by
  unfold runLoop
  split
  · rename_i hidle
    rw [hidle]; rfl
  · rename_i hrun
    exact absurd hrun hpc
  · rfl

/-- **Every step keeps the invariant.** -/
theorem Inv.step {s s' : State τ} {a : Action τ} (h : Inv s)
    (hs : ProcessorTasks.step s a = some s') : Inv s' := by
  cases a with
  | addTask task =>
    simp only [ProcessorTasks.step] at hs
    split at hs
    · exact absurd hs (by simp)
    · rename_i hadded
      rw [← Option.some.inj hs]
      exact h.addTask (by simpa using hadded)
  | wake task =>
    simp only [ProcessorTasks.step] at hs
    split at hs
    · rename_i hheld
      rw [← Option.some.inj hs]
      exact h.wakeHeld hheld
    · split at hs
      · rename_i hearly
        rw [← Option.some.inj hs]
        exact h.wakeEarly hearly.1 hearly.2.1 hearly.2.2
      · exact absurd hs (by simp)
  | start =>
    rw [← Option.some.inj hs]
    exact ⟨h.account, h.current, h.pc, h.early, .inr (.inr rfl), h.ended, h.order⟩
  | idle =>
    simp only [ProcessorTasks.step] at hs
    split at hs
    · rename_i hpc
      have hnone : s.queues.m_curTask = none := by
        by_contra hne
        simpa [hpc] using h.pc hne
      have hstarted : s.m_started = true := by simpa [hpc] using h.started
      rw [← Option.some.inj hs]
      exact ⟨h.account, h.current, fun hne => absurd hnone hne,
        fun he => absurd (hpc.symm.trans (h.early he)) (by simp), .inr (.inr hstarted), h.ended,
        h.order⟩
    · exact absurd hs (by simp)
  | run out =>
    have hrun : runLoop s out = some s' := hs
    by_cases hpc : s.pc = .running
    · rw [runLoop, hpc] at hrun
      simp only [] at hrun
      split at hrun
      · exact absurd hrun (by simp)
      · rename_i hout
        obtain ⟨task, hcur, hmap⟩ := Option.bind_eq_some_iff.mp hrun
        rw [runStep, hcur] at hmap
        rw [← Option.some.inj hmap]
        exact h.swapOut hpc hcur hout
    · rw [runLoop_of_ne hpc] at hrun
      obtain ⟨⟨pc, queues⟩, hloop, hs'⟩ := Option.map_eq_some_iff.mp hrun
      rw [← hs']
      exact h.loop hpc hloop

theorem inv_reachable {s : State τ} (h : (system τ).Reachable s) : Inv s := by
  refine h.invariant (fun t ht => ?_) fun t a t' hI _ hs => hI.step hs
  rw [show t = initial from ht]
  exact inv_initial

/-- One task is woken before it has swapped out, another one ends. -/
def wokenEarly : List (Action Nat) :=
  [.start, .addTask 0, .addTask 1] ++ List.replicate 6 (.run .READY) ++
    [.wake 0, .run .HOLD, .run .READY, .run .READY, .run .TERM]

end LimWebserver.ProcessorTasks
