import LimWebserver.Lib.Transition
import LimWebserver.Coroutine.RunLoop
import Mathlib.Logic.Function.Basic

namespace LimWebserver.Processor

open LimWebserver.Lib

/-!
# Coroutine — `Processor`: wake-ups of the processor thread

The base `Processor` sleeps in a condition variable.  This file models one processor thread
together with any number of threads that call `addTask` or run through `Scheduler::stop`, every
`LFQueue` operation and every section locked by `m_mutex` being one step.

* `State` / `step` — the members shared by the threads, the program point of each of them, and
  their steps; `idle()` is split at `m_cond.wait()`, which releases the lock;
* `Inv` — the invariant: while the thread is asleep or about to be, every entry of `m_newQueue`
  belongs to a call whose `tickle()` is still to come, or `m_notified` keeps the thread awake;
* `asleep_queue_unannounced` — no wake-up is lost.
-/

/-- Program points of `Processor::idle`. -/
inductive IdlePc
  /-- about to take `m_mutex` -/
  | enter
  /-- asleep in `m_cond.wait()`, no signal pending -/
  | waiting
  /-- signalled, or woken spuriously, and about to take `m_mutex` back -/
  | waking
  deriving DecidableEq, Repr

/-- Program points of the other threads. -/
inductive ThreadPc
  | idle
  /-- `addTask`: call number `call` has queued its task, `tickle()` comes next -/
  | tickle (call : Nat)
  /-- `Scheduler::stop`: `m_started` was seen true, it is cleared next -/
  | stopFlag
  /-- `Scheduler::stop`: the flag is cleared, `processor->tickle()` comes next -/
  | stopTickle
  deriving DecidableEq, Repr

/-- The processor, its scheduler's `m_started` and the program points of all threads. -/
structure State (Θ τ : Type*) extends Flags where
  queues : Queues (Entry τ)
  pc : RunPc IdlePc
  /-- `m_scheduler->m_started` -/
  m_started : Bool
  /-- `Scheduler::start` has not set `m_started` yet -/
  starting : Bool
  thread : Θ → ThreadPc
  /-- how many `addTask` calls have queued their task -/
  calls : Nat
  /-- some `tickle()` of `Scheduler::stop` has completed -/
  stopTickled : Bool

/-- The steps of the threads. -/
inductive Action (Θ τ : Type*)
  /-- `m_newQueue.enqueue(task)` of `addTask` -/
  | enqueue (θ : Θ) (task : τ)
  /-- the locked section of `tickle()` -/
  | tickle (θ : Θ)
  /-- `if (!m_started) return;` of `Scheduler::stop` -/
  | stop (θ : Θ)
  /-- `m_started = false` of `Scheduler::stop` -/
  | stopFlag (θ : Θ)
  /-- `m_started = true` of `Scheduler::start` -/
  | start
  /-- the next step of the processor thread -/
  | loop (out : TaskState)
  /-- a spurious return of `pthread_cond_wait` -/
  | spurious
  deriving DecidableEq, Repr

variable {Θ τ : Type*}

/-- `m_cond.notify_one()`: wakes the processor thread if it waits. -/
def notifyOne : RunPc IdlePc → RunPc IdlePc
  | .idle .waiting => .idle .waking
  | pc => pc

/-- The locked section of `Processor::tickle`: what becomes of the processor thread and the
    flags. -/
def tickle (pc : RunPc IdlePc) (f : Flags) : RunPc IdlePc × Flags :=
  if f.m_idled then (notifyOne pc, f)
  else if !f.m_notified then (pc, { f with m_notified := true })
  else (pc, f)

/-- The locked sections of `Processor::idle`. -/
def idleStep : IdlePc → Flags → Option (RunPc IdlePc × Flags)
  | .enter, f =>
    if f.m_notified then some (.afterIdle, { f with m_notified := false })
    else some (.idle .waiting, { f with m_idled := true })
  | .waiting, _ => none
  | .waking, f => some (.afterIdle, { f with m_idled := false })

/-- One step of the processor thread. -/
def loopStep (out : TaskState) (s : State Θ τ) : Option (State Θ τ) :=
  match s.pc with
  | .idle i => (idleStep i s.toFlags).map fun r => { s with pc := r.1, toFlags := r.2 }
  | pc =>
    (runStep .enter (!s.m_started) out pc s.queues).map fun r =>
      { s with pc := r.1, queues := r.2 }

/-- The processor after a `tickle()`. -/
def State.tickled (s : State Θ τ) : State Θ τ :=
  { s with pc := (tickle s.pc s.toFlags).1, toFlags := (tickle s.pc s.toFlags).2 }

/-- A processor whose thread has just been created. -/
def initial : State Θ τ where
  queues := Queues.empty
  m_idled := false
  m_notified := false
  pc := .outer
  m_started := false
  starting := true
  thread := fun _ => .idle
  calls := 0
  stopTickled := false

section
variable [DecidableEq Θ]

/-- One step of the system. -/
def step (s : State Θ τ) : Action Θ τ → Option (State Θ τ)
  | .enqueue θ t =>
    match s.thread θ with
    | .idle => some { s with
        queues := s.queues.enqueueNew ⟨t, s.calls⟩
        calls := s.calls + 1
        thread := Function.update s.thread θ (.tickle s.calls) }
    | _ => none
  | .tickle θ =>
    match s.thread θ with
    | .tickle _ => some { s.tickled with thread := Function.update s.thread θ .idle }
    | .stopTickle => some
        { s.tickled with thread := Function.update s.thread θ .idle, stopTickled := true }
    | _ => none
  | .stop θ =>
    match s.thread θ with
    | .idle =>
      if s.m_started then some { s with thread := Function.update s.thread θ .stopFlag }
      else some s
    | _ => none
  | .stopFlag θ =>
    match s.thread θ with
    | .stopFlag => some
        { s with m_started := false, thread := Function.update s.thread θ .stopTickle }
    | _ => none
  | .start => if s.starting then some { s with m_started := true, starting := false } else none
  | .loop out => loopStep out s
  | .spurious =>
    match s.pc with
    | .idle .waiting => some { s with pc := .idle .waking }
    | _ => none

/-- The processor system. -/
def system (Θ τ : Type*) [DecidableEq Θ] : LTS (State Θ τ) (Action Θ τ) where
  init := fun s => s = initial
  step := step

end

/-! ### The wake-up invariant -/

/-- The `addTask` call that queued `e` has not completed its `tickle()`. -/
def Unannounced (s : State Θ τ) (e : Entry τ) : Prop := ∃ θ, s.thread θ = .tickle e.call

/-- The invariant of the wake-up protocol. -/
structure Inv (s : State Θ τ) : Prop where
  /-- `m_idled` is set exactly inside `m_cond.wait()`. -/
  idled : s.m_idled = true ↔ s.pc = .idle .waiting ∨ s.pc = .idle .waking
  /-- A sleeping thread has missed no completed `tickle()`. -/
  asleep : s.pc = .idle .waiting → ∀ e ∈ s.queues.m_newQueue, Unannounced s e
  /-- A completed `tickle()` for a task that the thread has not seen keeps it from sleeping. -/
  toIdle : ToIdle .enter s.pc s.queues →
    ∀ e ∈ s.queues.m_newQueue, Unannounced s e ∨ s.m_notified = true
  /-- `m_started` is set once, by `Scheduler::start`. -/
  starting : s.starting = true → s.m_started = false
  /-- Whoever has passed the test of `stop()` has done so after `start`. -/
  stopping : ∀ θ, s.thread θ = .stopFlag ∨ s.thread θ = .stopTickle → s.starting = false
  /-- `stop()` tickles with the flag down. -/
  stopTickle : ∀ θ, s.thread θ = .stopTickle → s.m_started = false
  /-- After the `tickle()` of `stop()` the thread is on its way out or will be. -/
  stopped : s.stopTickled = true → s.starting = false ∧ s.m_started = false ∧
    (Leaving s.pc ∨ s.pc = .idle .waking ∨ (s.pc ≠ .idle .waiting ∧ s.m_notified = true))

theorem inv_initial : Inv (initial : State Θ τ) := by
  constructor <;> simp [initial, Queues.empty]

/-- `tickle()` either signals the sleeping thread or leaves it a notification. -/
theorem tickle_cases (pc : RunPc IdlePc) (f : Flags) :
    (f.m_idled = true ∧ tickle pc f = (notifyOne pc, f)) ∨
    (f.m_idled = false ∧ tickle pc f = (pc, { f with m_notified := true })) := by
  obtain ⟨i, n⟩ := f
  cases i
  · cases n <;> exact .inr ⟨rfl, rfl⟩
  · exact .inl ⟨rfl, rfl⟩

variable [DecidableEq Θ]

/-- Queuing a task keeps the invariant: the new entry is still unannounced. -/
theorem inv_enqueue {s : State Θ τ} {θ : Θ} {t : τ} (h : Inv s) (hθ : s.thread θ = .idle) :
    Inv { s with
      queues := s.queues.enqueueNew ⟨t, s.calls⟩
      calls := s.calls + 1
      thread := Function.update s.thread θ (.tickle s.calls) } := by
  have hnew : ∀ e ∈ (s.queues.enqueueNew ⟨t, s.calls⟩).m_newQueue,
      e ∈ s.queues.m_newQueue ∨
        ∃ θ', Function.update s.thread θ (.tickle s.calls) θ' = .tickle e.call := by
    intro e he
    simp only [Queues.enqueueNew_newQueue, List.mem_append, List.mem_singleton] at he
    rcases he with he | rfl
    · exact .inl he
    · exact .inr ⟨θ, Function.update_self ..⟩
  have hold : ∀ e, Unannounced s e →
      ∃ θ', Function.update s.thread θ (.tickle s.calls) θ' = .tickle e.call :=
    fun e he => exists_update_eq (by rw [hθ]; simp) he
  refine ⟨h.idled, ?_, ?_, h.starting, ?_, ?_, h.stopped⟩
  · intro hw e he
    rcases hnew e he with he | he
    · exact hold e (h.asleep hw e he)
    · exact he
  · intro hi e he
    rcases hnew e he with he | he
    · exact (h.toIdle hi e he).imp_left (hold e)
    · exact .inl he
  · rintro θ' (hs | hs)
    · exact h.stopping θ' (.inl (eq_of_update_eq (by simp) hs))
    · exact h.stopping θ' (.inr (eq_of_update_eq (by simp) hs))
  · exact fun θ' hs => h.stopTickle θ' (eq_of_update_eq (by simp) hs)

/-- **A `tickle()` is never lost.** Completing it keeps the invariant: a sleeping thread is
    signalled, a running one finds `m_notified`. -/
theorem inv_tickle {s : State Θ τ} {θ : Θ} (h : Inv s) (stopped : Bool)
    (hstop : stopped = true → s.stopTickled = true ∨ s.thread θ = .stopTickle) :
    Inv { s.tickled with
      thread := Function.update s.thread θ .idle, stopTickled := stopped } := by
  have hstopping : ∀ θ', Function.update s.thread θ .idle θ' = .stopFlag ∨
      Function.update s.thread θ .idle θ' = .stopTickle → s.starting = false := by
    rintro θ' (hs | hs)
    · exact h.stopping θ' (.inl (eq_of_update_eq (by simp) hs))
    · exact h.stopping θ' (.inr (eq_of_update_eq (by simp) hs))
  have hstopTickle : ∀ θ', Function.update s.thread θ .idle θ' = .stopTickle →
      s.m_started = false := fun θ' hs => h.stopTickle θ' (eq_of_update_eq (by simp) hs)
  have hflags : stopped = true → s.starting = false ∧ s.m_started = false := by
    intro hst
    rcases hstop hst with hs | hs
    · exact ⟨(h.stopped hs).1, (h.stopped hs).2.1⟩
    · exact ⟨h.stopping θ (.inr hs), h.stopTickle θ hs⟩
  rcases tickle_cases s.pc s.toFlags with ⟨hi, heq⟩ | ⟨hi, heq⟩
  · -- the thread is inside `wait()`: it is woken
    have hpc : notifyOne s.pc = .idle .waking := by
      rcases h.idled.mp hi with hpc | hpc <;> rw [hpc] <;> rfl
    rw [State.tickled, heq, hpc]
    refine ⟨by simp [hi], by simp, by simp [ToIdle], h.starting, hstopping, hstopTickle, ?_⟩
    exact fun hst => ⟨(hflags hst).1, (hflags hst).2, .inr (.inl rfl)⟩
  · -- the thread is awake: the notification keeps it so
    have hnw : s.pc ≠ .idle .waiting := fun hw => by
      rw [h.idled.mpr (.inl hw)] at hi; cases hi
    rw [State.tickled, heq]
    refine ⟨h.idled, fun hw => absurd hw hnw, fun _ e _ => .inr rfl, h.starting, hstopping,
      hstopTickle, ?_⟩
    exact fun hst => ⟨(hflags hst).1, (hflags hst).2, .inr (.inr ⟨hnw, rfl⟩)⟩

omit [DecidableEq Θ] in
/-- The steps of `run` outside `idle()` keep the invariant. -/
theorem inv_run {s : State Θ τ} {out : TaskState} {r : RunPc IdlePc × Queues (Entry τ)}
    (h : Inv s) (hpc : ∀ i, s.pc ≠ .idle i)
    (hr : runStep .enter (!s.m_started) out s.pc s.queues = some r) :
    Inv { s with pc := r.1, queues := r.2 } := by
  obtain ⟨pc', q'⟩ := r
  -- `run` enters `idle()` at its start only
  have hnw : ∀ i, i ≠ IdlePc.enter → pc' ≠ .idle i := by
    rintro i hi rfl; exact hi (runStep_idle hr)
  have hni : s.m_idled = false := by
    cases hi : s.m_idled
    · rfl
    · rcases h.idled.mp hi with hp | hp <;> exact absurd hp (hpc _)
  refine ⟨?_, fun hw => absurd hw (hnw _ (by simp)), ?_, h.starting, h.stopping, h.stopTickle, ?_⟩
  · simp [hni, hnw]
  · intro hi e he
    rcases runStep_toIdle hr hi with hq | ⟨hi', hq⟩
    · rw [hq] at he; exact absurd he (by simp)
    · rw [hq] at he; exact h.toIdle hi' e he
  · intro hst
    obtain ⟨h1, h2, h3⟩ := h.stopped hst
    refine ⟨h1, h2, ?_⟩
    rcases h3 with h3 | h3 | h3
    · rw [h2] at hr; exact .inl (runStep_leaving hr h3)
    · exact absurd h3 (hpc _)
    · exact .inr (.inr ⟨hnw _ (by simp), h3.2⟩)

omit [DecidableEq Θ] in
/-- The sections of `idle()` keep the invariant: it goes to sleep only when no call has left a
    notification, and after waking it takes over `m_newQueue`. -/
theorem inv_idle {s : State Θ τ} {i : IdlePc} {r : RunPc IdlePc × Flags} (h : Inv s)
    (hpc : s.pc = .idle i) (hr : idleStep i s.toFlags = some r) :
    Inv { s with pc := r.1, toFlags := r.2 } := by
  cases i with
  | enter =>
    have hni : s.m_idled = false := by
      cases hi : s.m_idled
      · rfl
      · rcases h.idled.mp hi with hp | hp <;> rw [hpc] at hp <;> simp at hp
    have hi : ToIdle .enter s.pc s.queues := .inr (.inr hpc)
    simp only [idleStep] at hr
    split at hr <;> cases hr
    · refine ⟨by simp [hni], by simp, by simp [ToIdle], h.starting, h.stopping, h.stopTickle, ?_⟩
      exact fun hst => ⟨(h.stopped hst).1, (h.stopped hst).2.1, .inl (.inl rfl)⟩
    · rename_i hn
      refine ⟨by simp, ?_, by simp [ToIdle], h.starting, h.stopping, h.stopTickle, ?_⟩
      · exact fun _ e he => (h.toIdle hi e he).resolve_right hn
      · intro hst
        -- the `tickle()` of `stop()` would have left a notification
        obtain ⟨-, -, h3 | h3 | h3⟩ := h.stopped hst
        · simp [Leaving, hpc] at h3
        · simp [hpc] at h3
        · exact absurd h3.2 hn
  | waiting => simp [idleStep] at hr
  | waking =>
    simp only [idleStep, Option.some.injEq] at hr
    subst hr
    refine ⟨by simp, by simp, by simp [ToIdle], h.starting, h.stopping, h.stopTickle, ?_⟩
    exact fun hst => ⟨(h.stopped hst).1, (h.stopped hst).2.1, .inl (.inl rfl)⟩

/-- Every step keeps the invariant. -/
theorem inv_step {s s' : State Θ τ} {a : Action Θ τ} (h : Inv s) (hs : step s a = some s') :
    Inv s' := by
  cases a with
  | enqueue θ t =>
    simp only [step] at hs
    split at hs <;> cases hs
    rename_i hθ
    exact inv_enqueue h hθ
  | tickle θ =>
    simp only [step] at hs
    split at hs <;> cases hs
    · exact inv_tickle h s.stopTickled .inl
    · rename_i hθ
      exact inv_tickle h true fun _ => .inr hθ
  | stop θ =>
    simp only [step] at hs
    split at hs
    · rename_i hθ
      split at hs <;> cases hs
      · rename_i hstarted
        have hns : s.starting = false := by
          cases hst : s.starting
          · rfl
          · rw [h.starting hst] at hstarted; cases hstarted
        refine ⟨h.idled, ?_, ?_, h.starting, fun _ _ => hns, ?_, h.stopped⟩
        · exact fun hw e he => exists_update_eq (by rw [hθ]; simp) (h.asleep hw e he)
        · exact fun hi e he => (h.toIdle hi e he).imp_left (exists_update_eq (by rw [hθ]; simp))
        · exact fun θ' heq => h.stopTickle θ' (eq_of_update_eq (by simp) heq)
      · exact h
    · cases hs
  | stopFlag θ =>
    simp only [step] at hs
    split at hs <;> cases hs
    rename_i hθ
    have hns := h.stopping θ (.inl hθ)
    refine ⟨h.idled, ?_, ?_, fun _ => rfl, fun _ _ => hns, fun _ _ => rfl, ?_⟩
    · exact fun hw e he => exists_update_eq (by rw [hθ]; simp) (h.asleep hw e he)
    · exact fun hi e he => (h.toIdle hi e he).imp_left (exists_update_eq (by rw [hθ]; simp))
    · exact fun hst => ⟨(h.stopped hst).1, rfl, (h.stopped hst).2.2⟩
  | start =>
    simp only [step] at hs
    split at hs <;> cases hs
    rename_i hstarting
    -- nobody has passed the test of `stop()` yet
    have hno : ∀ θ, ¬(s.thread θ = .stopFlag ∨ s.thread θ = .stopTickle) := fun θ hθ => by
      rw [h.stopping θ hθ] at hstarting; cases hstarting
    refine ⟨h.idled, h.asleep, h.toIdle, by simp, fun _ _ => rfl, ?_, ?_⟩
    · exact fun θ hθ => absurd (.inr hθ) (hno θ)
    · intro hst
      rw [(h.stopped hst).1] at hstarting; cases hstarting
  | loop out =>
    simp only [step, loopStep] at hs
    split at hs
    · rename_i i hpc
      rw [Option.map_eq_some_iff] at hs
      obtain ⟨r, hr, rfl⟩ := hs
      exact inv_idle h hpc hr
    · rename_i hpc
      rw [Option.map_eq_some_iff] at hs
      obtain ⟨r, hr, rfl⟩ := hs
      exact inv_run h hpc hr
  | spurious =>
    simp only [step] at hs
    split at hs <;> cases hs
    rename_i hpc
    refine ⟨?_, by simp, by simp [ToIdle], h.starting, h.stopping, h.stopTickle, ?_⟩
    · simp [h.idled.mpr (.inl hpc)]
    · exact fun hst => ⟨(h.stopped hst).1, (h.stopped hst).2.1, .inr (.inl rfl)⟩

theorem inv_reachable {s : State Θ τ} (h : (system Θ τ).Reachable s) : Inv s :=
  h.invariant (I := Inv) (fun _ h0 => h0 ▸ inv_initial) fun _ _ _ hi _ hs => inv_step hi hs

/-- **No lost wake-up.** Whenever the processor thread is asleep in `m_cond.wait()` with no
    signal pending, no task in `m_newQueue` has had its `tickle()` completed, and neither has
    `Scheduler::stop`. -/
theorem asleep_queue_unannounced {s : State Θ τ} (h : (system Θ τ).Reachable s)
    (hw : s.pc = .idle .waiting) :
    (∀ e ∈ s.queues.m_newQueue, Unannounced s e) ∧ s.stopTickled = false := by
  have hinv := inv_reachable h
  refine ⟨hinv.asleep hw, ?_⟩
  cases hst : s.stopTickled
  · rfl
  · obtain ⟨-, -, h3 | h3 | h3⟩ := hinv.stopped hst
    · simp [Leaving, hw] at h3
    · simp [hw] at h3
    · exact absurd hw h3.1

/-- The trace of a processor that falls asleep just before a thread queues its first task. -/
def lateEnqueue : List (Action Unit Nat) :=
  .start :: List.replicate 6 (.loop .READY) ++ [.enqueue () 7]

/-- The sleeping processor of `lateEnqueue`: the one queued task is still to be announced. -/
theorem asleep_queue_unannounced_lateEnqueue :
    ∃ s : State Unit Nat, s.pc = .idle .waiting ∧ s.queues.m_newQueue = [⟨7, 0⟩] ∧
      (∀ e ∈ s.queues.m_newQueue, Unannounced s e) ∧ s.stopTickled = false :=
  have hr : (system Unit Nat).exec initial lateEnqueue = some _ := rfl
  ⟨_, rfl, rfl, asleep_queue_unannounced (LTS.reachable_of_exec rfl hr) rfl⟩

end LimWebserver.Processor
