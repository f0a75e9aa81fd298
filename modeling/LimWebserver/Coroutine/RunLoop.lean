import Mathlib.Data.List.Basic

namespace LimWebserver

/-!
# Coroutine — the loop of `Processor::run`

The scheduling loop that every processor thread executes, one step for each `LFQueue`
operation and each locked section of the source.  `Processor::idle` is virtual, so the loop
is generic in the program points `ι` of the override; the base class and `EventLoop` supply
their own.

* `Queues` — the members of `Processor` that the loop works on, the two lock-free queues read
  as lists (their operations are single steps here), with `Entry` for what they hold;
* `RunPc` / `runStep` — the program points of `run` and `getNextTask`, and one step of them;
* `ToIdle` — the stretch between the `concatenate` of `getNextTask(true)` and `idle()`, during
  which the thread has decided to go to sleep but has not looked at the queue again.
-/

/-- `TaskState`: how a task stands when `swapIn` returns to the processor. -/
inductive TaskState
  | READY | EXEC | HOLD | EXCEPT | TERM
  deriving DecidableEq, Repr

/-- An entry of a task queue: the task and the number of the `addTask` call that queued it. -/
structure Entry (τ : Type*) where
  task : τ
  call : Nat
  deriving DecidableEq, Repr

/-- The task queues and the loop-local members of `Processor`. -/
structure Queues (τ : Type*) where
  /-- New tasks, filled by any thread. -/
  m_newQueue : List τ
  /-- Tasks ready to run, owned by the processor thread. -/
  m_runableQueue : List τ
  /-- The task being run. -/
  m_curTask : Option τ
  /-- Ended tasks waiting to be dropped. -/
  m_garbageList : List τ
  /-- How often one round may still take over new tasks. -/
  m_addNewRemain : Nat

variable {ι τ : Type*}

namespace Queues

/-- The queues of a freshly built `Processor`. -/
def empty : Queues τ where
  m_newQueue := []
  m_runableQueue := []
  m_curTask := none
  m_garbageList := []
  m_addNewRemain := 0

/-- `m_newQueue.enqueue(task)`. -/
def enqueueNew (q : Queues τ) (t : τ) : Queues τ :=
  { q with m_newQueue := q.m_newQueue ++ [t] }

/-- `m_runableQueue.concatenate(m_newQueue)`. -/
def concatenate (q : Queues τ) : Queues τ :=
  { q with m_runableQueue := q.m_runableQueue ++ q.m_newQueue, m_newQueue := [] }

/-- The switch after `swapIn`: a ready task is queued again, a held one is left to its waker,
    every other state ends it. -/
def swapOut (q : Queues τ) (t : τ) : TaskState → Queues τ
  | .READY => { q with m_runableQueue := q.m_runableQueue ++ [t], m_curTask := none }
  | .HOLD => { q with m_curTask := none }
  -- `TERM` and `default`
  | _ =>
    { q with
      m_garbageList := (if 16 < q.m_garbageList.length then [] else q.m_garbageList) ++ [t]
      m_curTask := none }

@[simp] theorem enqueueNew_newQueue (q : Queues τ) (t : τ) :
    (q.enqueueNew t).m_newQueue = q.m_newQueue ++ [t] := rfl
@[simp] theorem enqueueNew_curTask (q : Queues τ) (t : τ) :
    (q.enqueueNew t).m_curTask = q.m_curTask := rfl
@[simp] theorem concatenate_newQueue (q : Queues τ) : q.concatenate.m_newQueue = [] := rfl

/-- Swapping a task out leaves the new tasks where they are. -/
@[simp] theorem swapOut_newQueue (q : Queues τ) (t : τ) (out : TaskState) :
    (q.swapOut t out).m_newQueue = q.m_newQueue := by
  cases out <;> rfl

/-- Read the entries of the queues through `f`. -/
def map {κ : Type*} (f : τ → κ) (q : Queues τ) : Queues κ where
  m_newQueue := q.m_newQueue.map f
  m_runableQueue := q.m_runableQueue.map f
  m_curTask := q.m_curTask.map f
  m_garbageList := q.m_garbageList.map f
  m_addNewRemain := q.m_addNewRemain

section
variable {κ : Type*} (f : τ → κ) (q : Queues τ)

theorem map_enqueueNew (t : τ) : (q.enqueueNew t).map f = (q.map f).enqueueNew (f t) := by
  simp only [map, enqueueNew, List.map_append, List.map_cons, List.map_nil]

theorem map_concatenate : q.concatenate.map f = (q.map f).concatenate := by
  simp only [map, concatenate, List.map_append, List.map_nil]

theorem map_swapOut (t : τ) (out : TaskState) :
    (q.swapOut t out).map f = (q.map f).swapOut (f t) out := by
  cases out <;> simp [map, swapOut, apply_ite (List.map f)]

end

end Queues

/-- The two flags through which `tickle()` and `idle()` talk to each other. -/
structure Flags where
  /-- The thread sleeps. -/
  m_idled : Bool
  /-- A notification was left while the thread was working. -/
  m_notified : Bool
  deriving DecidableEq, Repr

/-- Program points of `Processor::run`; `flag` is the argument of the running
    `getNextTask(flag)`. -/
inductive RunPc (ι : Type*)
  /-- `while (!stopping())` -/
  | outer
  /-- the first `m_runableQueue.dequeue(m_curTask)` of `getNextTask` -/
  | dequeue (flag : Bool)
  /-- `m_runableQueue.concatenate(m_newQueue)` of `getNextTask` -/
  | concatenate (flag : Bool)
  /-- the second `dequeue` of `getNextTask` -/
  | dequeueAgain (flag : Bool)
  /-- `if (m_curTask == nullptr)` -/
  | test
  /-- inside `idle()` -/
  | idle (at_ : ι)
  /-- the `concatenate` that follows `idle()` -/
  | afterIdle
  /-- `while (m_curTask && !stopping())` -/
  | inner
  /-- the current task runs -/
  | running
  /-- `run` has returned -/
  | exited
  deriving DecidableEq, Repr

/-- Read the program points of one override of `idle()` as those of another. -/
def RunPc.map {κ : Type*} (f : ι → κ) : RunPc ι → RunPc κ
  | .outer => .outer
  | .dequeue flag => .dequeue flag
  | .concatenate flag => .concatenate flag
  | .dequeueAgain flag => .dequeueAgain flag
  | .test => .test
  | .idle i => .idle (f i)
  | .afterIdle => .afterIdle
  | .inner => .inner
  | .running => .running
  | .exited => .exited

/-- Where `getNextTask(flag)` returns to. -/
def RunPc.caller : Bool → RunPc ι
  | true => .test
  | false => .inner

/-- One step of `Processor::run`.  `entry` is the first program point of `idle()`, `stopping`
    the value that `stopping()` returns in this step and `out` the state in which the running
    task swaps out; the steps inside `idle()` belong to its override. -/
def runStep (entry : ι) (stopping : Bool) (out : TaskState) :
    RunPc ι → Queues τ → Option (RunPc ι × Queues τ)
  | .outer, q => some (if stopping then .exited else .dequeue true, q)
  | .dequeue flag, q =>
    match q.m_runableQueue with
    | t :: rest =>
      some (.caller flag, { q with m_runableQueue := rest, m_curTask := some t })
    | [] =>
      -- a round takes over new tasks once, its beginning always
      some (if flag || 0 < q.m_addNewRemain then .concatenate flag else .dequeueAgain flag, q)
  | .concatenate flag, q =>
    some (.dequeueAgain flag,
      { q.concatenate with
        m_addNewRemain := if flag then q.m_addNewRemain else q.m_addNewRemain - 1 })
  | .dequeueAgain flag, q =>
    match q.m_runableQueue with
    | t :: rest =>
      some (.caller flag, { q with m_runableQueue := rest, m_curTask := some t })
    | [] => some (.caller flag, q)
  | .test, q =>
    match q.m_curTask with
    -- `garbageCollection()`
    | none => some (.idle entry, { q with m_garbageList := [] })
    | some _ => some (.inner, { q with m_addNewRemain := 1 })
  | .idle _, _ => none
  -- and `continue`
  | .afterIdle, q => some (.outer, q.concatenate)
  | .inner, q =>
    some (if q.m_curTask.isSome && !stopping then .running else .outer, q)
  | .running, q => q.m_curTask.map fun t => (.dequeue false, q.swapOut t out)
  | .exited, _ => none

/-- The loop does not look at the entries of its queues. -/
theorem runStep_map {κ : Type*} (f : τ → κ) (entry : ι) (stopping : Bool) (out : TaskState)
    (pc : RunPc ι) (q : Queues τ) : runStep entry stopping out pc (q.map f) =
      (runStep entry stopping out pc q).map fun (pc', q') => (pc', q'.map f) := by
  cases pc with
  | dequeue flag =>
    cases hq : q.m_runableQueue <;> simp [runStep, Queues.map, hq]
  | dequeueAgain flag =>
    cases hq : q.m_runableQueue <;> simp [runStep, Queues.map, hq]
  | concatenate flag =>
    simp only [runStep, Option.map_some, ← Queues.map_concatenate]
    rfl
  | test =>
    cases hq : q.m_curTask <;> simp [runStep, Queues.map, hq]
  | afterIdle => simp only [runStep, Option.map_some, Queues.map_concatenate]
  | inner => simp [runStep, Queues.map]
  | running =>
    cases hq : q.m_curTask <;> simp [runStep, Queues.map_swapOut, hq]
    · simp [Queues.map, hq]
    · simp [Queues.map, hq]
  | outer => rfl
  | idle i => rfl
  | exited => rfl

/-! ### What one step of the loop does -/

/-- The thread has taken over `m_newQueue`, found nothing to run and is about to call `idle()`:
    from here on it does not look at `m_newQueue` again before `idle()` has returned. -/
def ToIdle (entry : ι) (pc : RunPc ι) (q : Queues τ) : Prop :=
  pc = .dequeueAgain true ∨ (pc = .test ∧ q.m_curTask = none) ∨ pc = .idle entry

/-- The loop has left `idle()` or has ended: its next test is the one of `stopping()`. -/
def Leaving (pc : RunPc ι) : Prop := pc = .afterIdle ∨ pc = .outer ∨ pc = .exited

variable {entry : ι} {stopping : Bool} {out : TaskState} {pc pc' : RunPc ι} {q q' : Queues τ}

/-- What a step of the loop from `pc` and `q` to `q'` has done when it arrives at a program
    point. -/
def Arrived (entry : ι) (stopping : Bool) (pc : RunPc ι) (q q' : Queues τ) : RunPc ι → Prop
  | .idle i => i = entry ∧ pc = .test ∧ q.m_curTask = none ∧ q'.m_newQueue = q.m_newQueue
  | .test => q'.m_curTask.isSome ∨ (pc = .dequeueAgain true ∧ q' = q)
  | .dequeueAgain true => q'.m_newQueue = []
  | .running => q'.m_curTask.isSome
  | .exited => pc = .outer ∧ stopping = true
  | _ => True

/-- **Inversion** of a step of the loop, by the program point it arrives at. -/
theorem runStep_into (h : runStep entry stopping out pc q = some (pc', q')) :
    Arrived entry stopping pc q q' pc' := by
  cases pc with
  | outer =>
    simp only [runStep, Option.some.injEq, Prod.mk.injEq] at h
    obtain ⟨rfl, rfl⟩ := h
    cases stopping <;> simp [Arrived]
  | dequeue flag =>
    simp only [runStep] at h
    split at h
    · -- a task was found: the caller does not go idle
      simp only [Option.some.injEq, Prod.mk.injEq] at h
      obtain ⟨rfl, rfl⟩ := h
      cases flag <;> simp [Arrived, RunPc.caller]
    · simp only [Option.some.injEq, Prod.mk.injEq] at h
      obtain ⟨rfl, rfl⟩ := h
      cases flag
      · rw [Bool.false_or]; split <;> trivial
      · trivial
  | concatenate flag =>
    simp only [runStep, Option.some.injEq, Prod.mk.injEq] at h
    obtain ⟨rfl, rfl⟩ := h
    cases flag <;> simp [Arrived]
  | dequeueAgain flag =>
    simp only [runStep] at h
    split at h
    all_goals
      simp only [Option.some.injEq, Prod.mk.injEq] at h
      obtain ⟨rfl, rfl⟩ := h
      cases flag <;> simp [Arrived, RunPc.caller]
  | test =>
    simp only [runStep] at h
    split at h
    · rename_i hcur
      simp only [Option.some.injEq, Prod.mk.injEq] at h
      obtain ⟨rfl, rfl⟩ := h
      exact ⟨rfl, rfl, hcur, rfl⟩
    · simp only [Option.some.injEq, Prod.mk.injEq] at h
      obtain ⟨rfl, rfl⟩ := h
      trivial
  | idle i => simp [runStep] at h
  | afterIdle =>
    simp only [runStep, Option.some.injEq, Prod.mk.injEq] at h
    obtain ⟨rfl, rfl⟩ := h
    trivial
  | inner =>
    simp only [runStep, Option.some.injEq, Prod.mk.injEq] at h
    obtain ⟨rfl, rfl⟩ := h
    split
    · rename_i hcur
      exact (Bool.and_eq_true_iff.mp hcur).1
    · trivial
  | running =>
    simp only [runStep, Option.map_eq_some_iff, Prod.mk.injEq] at h
    obtain ⟨t, -, rfl, rfl⟩ := h
    trivial
  | exited => simp [runStep] at h

/-- The loop enters `idle()` at its entry only. -/
theorem runStep_idle {i : ι} (h : runStep entry stopping out pc q = some (.idle i, q')) :
    i = entry :=
  (runStep_into h).1

/-- A task runs only when there is one. -/
theorem runStep_running (h : runStep entry stopping out pc q = some (.running, q')) :
    q'.m_curTask.isSome :=
  runStep_into h

/-- The loop ends only when `stopping()` says so. -/
theorem runStep_exited (h : runStep entry stopping out pc q = some (.exited, q')) :
    stopping = true :=
  (runStep_into h).2

/-- The test of the inner loop switches to the current task, and moves nothing. -/
theorem runStep_inner (h : runStep entry stopping out pc q = some (.running, q')) :
    pc = .inner ∧ q' = q := by
  cases pc with
  | inner =>
    simp only [runStep, Option.some.injEq, Prod.mk.injEq] at h
    exact ⟨rfl, h.2.symm⟩
  | outer =>
    simp only [runStep, Option.some.injEq, Prod.mk.injEq] at h
    cases stopping <;> exact absurd h.1 (by simp)
  | dequeue flag =>
    simp only [runStep] at h
    split at h
    · cases flag <;> simp [RunPc.caller] at h
    · simp only [Option.some.injEq, Prod.mk.injEq] at h
      split at h <;> exact absurd h.1 (by simp)
  | dequeueAgain flag =>
    simp only [runStep] at h
    split at h <;> cases flag <;> simp [RunPc.caller] at h
  | test =>
    simp only [runStep] at h
    split at h <;> simp at h
  | running => simp [runStep] at h
  | concatenate flag => simp [runStep] at h
  | idle i => simp [runStep] at h
  | afterIdle => simp [runStep] at h
  | exited => simp [runStep] at h

/-- Either `dequeue` of `getNextTask` takes the first runnable task, or finds none and moves
    nothing. -/
theorem runStep_dequeue {flag : Bool} (hpc : pc = .dequeue flag ∨ pc = .dequeueAgain flag)
    (h : runStep entry stopping out pc q = some (pc', q')) :
    (∃ t rest, q.m_runableQueue = t :: rest ∧ pc' = .caller flag ∧
      q' = { q with m_runableQueue := rest, m_curTask := some t }) ∨ q' = q := by
  rcases hpc with rfl | rfl
  all_goals
    simp only [runStep] at h
    split at h
    · rename_i t rest hq
      simp only [Option.some.injEq, Prod.mk.injEq] at h
      exact .inl ⟨t, rest, hq, h.1.symm, h.2.symm⟩
    · simp only [Option.some.injEq, Prod.mk.injEq] at h
      exact .inr h.2.symm

/-- An entry of the queues or of the current slot. -/
def Queues.Has (q : Queues τ) (t : τ) : Prop :=
  t ∈ q.m_newQueue ∨ t ∈ q.m_runableQueue ∨ q.m_curTask = some t

/-- While no task runs the loop makes no entries. -/
theorem runStep_has (hrun : pc ≠ .running) (h : runStep entry stopping out pc q = some (pc', q'))
    {t : τ} (ht : q'.Has t) : q.Has t := by
  have hconcatenate : q.concatenate.Has t → q.Has t := by
    rintro (hn | hr | hc)
    · exact absurd hn List.not_mem_nil
    · rcases List.mem_append.mp hr with hr | hn
      · exact .inr (.inl hr)
      · exact .inl hn
    · exact .inr (.inr hc)
  -- a task that is dequeued was in `m_runableQueue`
  have hdequeue : ∀ flag, pc = .dequeue flag ∨ pc = .dequeueAgain flag → q.Has t := by
    intro flag hpc
    rcases runStep_dequeue hpc h with ⟨u, rest, hq, -, rfl⟩ | rfl
    · rcases ht with hn | hr | hc
      · exact .inl hn
      · exact .inr (.inl (hq ▸ List.mem_cons_of_mem u hr))
      · exact .inr (.inl (hq ▸ Option.some.inj hc ▸ List.mem_cons_self))
    · exact ht
  cases pc with
  | outer =>
    simp only [runStep, Option.some.injEq, Prod.mk.injEq] at h
    exact h.2 ▸ ht
  | dequeue flag => exact hdequeue flag (.inl rfl)
  | concatenate flag =>
    simp only [runStep, Option.some.injEq, Prod.mk.injEq] at h
    rw [← h.2] at ht
    exact hconcatenate ht
  | dequeueAgain flag => exact hdequeue flag (.inr rfl)
  | test =>
    simp only [runStep] at h
    split at h <;> simp only [Option.some.injEq, Prod.mk.injEq] at h <;> rw [← h.2] at ht <;>
      exact ht
  | afterIdle =>
    simp only [runStep, Option.some.injEq, Prod.mk.injEq] at h
    rw [← h.2] at ht
    exact hconcatenate ht
  | inner =>
    simp only [runStep, Option.some.injEq, Prod.mk.injEq] at h
    exact h.2 ▸ ht
  | running => exact absurd rfl hrun
  | idle i => simp [runStep] at h
  | exited => simp [runStep] at h

/-- **The way to `idle()`.** A step into the stretch before `idle()` either just emptied
    `m_newQueue` or started inside the stretch and left `m_newQueue` alone. -/
theorem runStep_toIdle (h : runStep entry stopping out pc q = some (pc', q'))
    (hidle : ToIdle entry pc' q') :
    q'.m_newQueue = [] ∨ (ToIdle entry pc q ∧ q'.m_newQueue = q.m_newQueue) := by
  have hinto := runStep_into h
  rcases hidle with rfl | ⟨rfl, hcur⟩ | rfl
  · exact .inl hinto
  · -- `getNextTask(true)` returns without a task only from its second `dequeue`
    rcases hinto with hsome | ⟨hpc, rfl⟩
    · rw [hcur] at hsome; cases hsome
    · exact .inr ⟨.inl hpc, rfl⟩
  · obtain ⟨-, hpc, hcur, hq⟩ := hinto
    exact .inr ⟨.inr (.inl ⟨hpc, hcur⟩), hq⟩

/-- Outside `idle()` a loop that has not ended can always take a step. -/
theorem runStep_isSome (hidle : ∀ i, pc ≠ .idle i) (hexit : pc ≠ .exited)
    (hrun : pc = .running → q.m_curTask.isSome) :
    (runStep entry stopping out pc q).isSome := by
  cases pc with
  | dequeue flag => simp only [runStep]; split <;> rfl
  | dequeueAgain flag => simp only [runStep]; split <;> rfl
  | test => simp only [runStep]; split <;> rfl
  | running => simpa [runStep] using hrun rfl
  | idle i => exact absurd rfl (hidle i)
  | exited => exact absurd rfl hexit
  | _ => rfl

/-- Once `stopping()` returns true, a loop outside `idle()` that is on its way to the test
    ends. -/
theorem runStep_leaving (h : runStep entry true out pc q = some (pc', q'))
    (hl : Leaving pc) : Leaving pc' := by
  rcases hl with rfl | rfl | rfl
  · simp only [runStep, Option.some.injEq, Prod.mk.injEq] at h
    exact .inr (.inl h.1.symm)
  · simp only [runStep, if_pos, Option.some.injEq, Prod.mk.injEq] at h
    exact .inr (.inr h.1.symm)
  · simp [runStep] at h

end LimWebserver
