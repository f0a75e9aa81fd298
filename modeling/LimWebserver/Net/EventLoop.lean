import LimWebserver.Lib.Transition
import LimWebserver.Coroutine.RunLoop

namespace LimWebserver.EventLoop

open LimWebserver.Lib

/-!
# Net — `EventLoop`: wake-ups of the loop thread

`EventLoop` replaces the condition variable of `Processor` by `epoll_wait` and an eventfd, and
its `tickle()` and `idle()` share `m_idled` and `m_notified` without a lock.  Every read or
write of the two flags, every eventfd write and the entry into `epoll_wait` is one step here.

* `State` / `step` — the loop thread together with any number of threads calling `addTask` or
  `tickle`;
* `NoLostWakeup` — what the two flags are for;
* `blocked_forgets_task` — the trace that loses a wake-up: `tickle()` runs between the test of
  `m_notified` and the write of `m_idled`;
* `Timely` — the condition on the steps of a run that leaves exactly this window out;
* `timely_noLostWakeup` — under it no wake-up is lost.
-/

/-- Program points of `EventLoop::idle`. -/
inductive IdlePc
  /-- `if (m_notified)` -/
  | test
  /-- `m_notified = false; return;` -/
  | clear
  /-- `m_idled = true` -/
  | set
  /-- about to enter `epoll_wait` -/
  | poll
  /-- inside `epoll_wait` -/
  | polling
  /-- `m_idled = false` -/
  | unset
  deriving DecidableEq, Repr

/-- Program points of `EventLoop::tickle`, run by call number `call`. -/
inductive ThreadPc
  | idle
  /-- `if (m_idled)` -/
  | testIdled (call : Nat)
  /-- `write(m_wakeFd, &one, sizeof one)` -/
  | write (call : Nat)
  /-- `if (!m_notified)` -/
  | testNotified (call : Nat)
  /-- `m_notified = true` -/
  | notify (call : Nat)
  deriving DecidableEq, Repr

/-- The call a thread is working on. -/
def ThreadPc.call? : ThreadPc → Option Nat
  | .idle => none
  | .testIdled c | .write c | .testNotified c | .notify c => some c

/-- The event loop, its scheduler's `m_started` and the program points of all threads. -/
structure State (Θ τ : Type*) extends Flags where
  queues : Queues (Entry τ)
  pc : RunPc IdlePc
  /-- `m_scheduler->m_started` -/
  m_started : Bool
  /-- the counter of the eventfd `m_wakeFd` -/
  wakeFd : Nat
  thread : Θ → ThreadPc
  /-- how many calls have begun -/
  calls : Nat

/-- The steps of the threads. -/
inductive Action (Θ τ : Type*)
  /-- `m_newQueue.enqueue(task)` of `addTask` -/
  | enqueue (θ : Θ) (task : τ)
  /-- a bare call of `tickle()`, as `Scheduler::stop` and `EventLoop::stop` make it -/
  | callTickle (θ : Θ)
  /-- the next step of a running `tickle()` -/
  | tickle (θ : Θ)
  /-- `m_started = false` of `Scheduler::stop` -/
  | stop
  /-- the next step of the loop thread -/
  | loop (out : TaskState)
  /-- `epoll_wait` returns: the eventfd is reported and read empty when `signalled`, and only
      a socket event or the timeout of 10 s ends the wait otherwise -/
  | wake (signalled : Bool)
  deriving DecidableEq, Repr

variable {Θ τ : Type*}

/-- The steps of `EventLoop::idle`; `epoll_wait` ends by `Action.wake` only. -/
def idleStep : IdlePc → Flags → Option (RunPc IdlePc × Flags)
  | .test, f => some (.idle (if f.m_notified then .clear else .set), f)
  | .clear, f => some (.afterIdle, { f with m_notified := false })
  | .set, f => some (.idle .poll, { f with m_idled := true })
  | .poll, f => some (.idle .polling, f)
  | .polling, _ => none
  | .unset, f => some (.afterIdle, { f with m_idled := false })

/-- One step of the loop thread. -/
def loopStep (out : TaskState) (s : State Θ τ) : Option (State Θ τ) :=
  match s.pc with
  -- the virtual `idle()` of `EventLoop`; the rest of `run` is that of `Processor`
  | .idle i => (idleStep i s.toFlags).map fun r => { s with pc := r.1, toFlags := r.2 }
  | pc =>
    (runStep .test (!s.m_started) out pc s.queues).map fun r =>
      { s with pc := r.1, queues := r.2 }

/-- An event loop that has just been started. -/
def initial : State Θ τ where
  queues := Queues.empty
  m_idled := false
  m_notified := false
  pc := .outer
  m_started := true
  wakeFd := 0
  thread := fun _ => .idle
  calls := 0

section
variable [DecidableEq Θ]

/-- Move thread `θ` to program point `pc`. -/
def State.goto (s : State Θ τ) (θ : Θ) (pc : ThreadPc) : State Θ τ :=
  { s with thread := Function.update s.thread θ pc }

/-- One step of `EventLoop::tickle` in thread `θ`. -/
def tickleStep (s : State Θ τ) (θ : Θ) : ThreadPc → Option (State Θ τ)
  | .idle => none
  | .testIdled c => some (s.goto θ (if s.m_idled then .write c else .testNotified c))
  | .write _ => some { s.goto θ .idle with wakeFd := s.wakeFd + 1 }
  -- a loop that is awake is told by the flag, once
  | .testNotified c => some (s.goto θ (if s.m_notified then .idle else .notify c))
  | .notify _ => some { s.goto θ .idle with m_notified := true }

/-- One step of the system. -/
def step (s : State Θ τ) : Action Θ τ → Option (State Θ τ)
  | .enqueue θ t =>
    match s.thread θ with
    | .idle => some { s.goto θ (.testIdled s.calls) with
        queues := s.queues.enqueueNew ⟨t, s.calls⟩
        calls := s.calls + 1 }
    | _ => none
  | .callTickle θ =>
    match s.thread θ with
    | .idle => some { s.goto θ (.testIdled s.calls) with calls := s.calls + 1 }
    | _ => none
  | .tickle θ => tickleStep s θ (s.thread θ)
  | .stop => some { s with m_started := false }
  | .loop out => loopStep out s
  | .wake signalled =>
    match s.pc with
    | .idle .polling =>
      if signalled then
        -- `poll` reads the eventfd until nothing is left
        if 0 < s.wakeFd then some { s with wakeFd := 0, pc := .idle .unset } else none
      else some { s with pc := .idle .unset }
    | _ => none

/-- The event-loop system. -/
def system (Θ τ : Type*) [DecidableEq Θ] : LTS (State Θ τ) (Action Θ τ) where
  init := fun s => s = initial
  step := step

end

/-! ### The property and the window that breaks it -/

/-- The call that queued `e` has not completed its `tickle()`. -/
def Unannounced (s : State Θ τ) (e : Entry τ) : Prop :=
  ∃ θ, (s.thread θ).call? = some e.call

/-- The loop thread is not blocked in `poll()`, with no eventfd signal to read, while
    `m_newQueue` holds a task whose `tickle()` has completed. -/
def NoLostWakeup (s : State Θ τ) : Prop :=
  s.pc = .idle .polling → s.wakeFd = 0 → ∀ e ∈ s.queues.m_newQueue, Unannounced s e

/-- `idle()` finds `m_notified` clear, a whole `addTask` runs, and only then does `idle()` set
    `m_idled` and block. -/
def lostWakeup : List (Action Unit Nat) :=
  List.replicate 6 (.loop .READY) ++
    [.enqueue () 7, .tickle (), .tickle (), .tickle (), .loop .READY, .loop .READY]

/-- **The lost wake-up.** After `lostWakeup` the loop thread is blocked, no signal is pending,
    and the task in `m_newQueue` has been announced. -/
theorem blocked_forgets_task :
    ¬ ∀ s : State Unit Nat, (system Unit Nat).Reachable s → NoLostWakeup s := by
  intro h
  have hr : (system Unit Nat).exec initial lostWakeup = some _ := rfl
  obtain ⟨θ, hθ⟩ := h _ (LTS.reachable_of_exec rfl hr) rfl rfl ⟨7, 0⟩ (by decide)
  simp [State.goto, ThreadPc.call?] at hθ

/-- The condition on a step: `idle()` goes from the test of `m_notified` to sleep only while no
    `tickle()` of a queued task has decided for `m_notified`, and no `tickle()` of a queued task
    makes that decision between this test and the write of `m_idled`. -/
def Timely (s : State Θ τ) : Action Θ τ → Prop
  | .loop _ => s.pc = .idle .test → s.m_notified = false → ∀ e ∈ s.queues.m_newQueue, ∀ θ,
      s.thread θ ≠ .testNotified e.call ∧ s.thread θ ≠ .notify e.call
  | .tickle θ => ∀ e ∈ s.queues.m_newQueue, s.thread θ = .testIdled e.call → s.pc ≠ .idle .set
  | _ => True

/-! ### The wake-up invariant -/

/-- Call `c` has not decided yet, or has decided to leave its notification in `m_notified`. -/
def WillNotify (c : Nat) (pc : ThreadPc) : Prop :=
  pc = .testIdled c ∨ pc = .testNotified c ∨ pc = .notify c

/-- Call `c` has not decided yet, or has decided to signal the eventfd. -/
def WillSignal (c : Nat) (pc : ThreadPc) : Prop := pc = .testIdled c ∨ pc = .write c

/-- The loop thread is going to sleep or sleeps. -/
def Sleeping (pc : RunPc IdlePc) : Prop :=
  pc = .idle .set ∨ pc = .idle .poll ∨ pc = .idle .polling

/-- The invariant of the wake-up protocol on timely runs. -/
structure Inv (s : State Θ τ) : Prop where
  /-- `m_idled` is set exactly around `poll()`. -/
  idled : s.m_idled = true ↔
    s.pc = .idle .poll ∨ s.pc = .idle .polling ∨ s.pc = .idle .unset
  /-- On the way to `idle()` every queued call will notify the loop or has notified it. -/
  toIdle : ToIdle .test s.pc s.queues → ∀ e ∈ s.queues.m_newQueue,
    (∃ θ, WillNotify e.call (s.thread θ)) ∨ s.m_notified = true
  /-- A sleeping loop will be signalled by every queued call, or has been. -/
  asleep : Sleeping s.pc → ∀ e ∈ s.queues.m_newQueue,
    (∃ θ, WillSignal e.call (s.thread θ)) ∨ 0 < s.wakeFd

theorem inv_initial : Inv (initial : State Θ τ) := by
  constructor <;> simp [initial, Queues.empty]

/-- `m_idled` is down on the way to `idle()`. -/
theorem Inv.not_idled {s : State Θ τ} (h : Inv s) (hi : ToIdle .test s.pc s.queues) :
    s.m_idled = false := by
  cases hidled : s.m_idled
  · rfl
  · rcases h.idled.mp hidled with hp | hp | hp <;> simp [ToIdle, hp] at hi

/-- The invariant says that no wake-up is lost. -/
theorem Inv.noLostWakeup {s : State Θ τ} (h : Inv s) : NoLostWakeup s := by
  intro hpc hfd e he
  rcases h.asleep (.inr (.inr hpc)) e he with ⟨θ, hθ | hθ⟩ | hpos
  · exact ⟨θ, by rw [hθ]; rfl⟩
  · exact ⟨θ, by rw [hθ]; rfl⟩
  · omega

/-- The steps of `run` outside `idle()` keep the invariant. -/
theorem inv_run {s : State Θ τ} {out : TaskState} {r : RunPc IdlePc × Queues (Entry τ)}
    (h : Inv s) (hpc : ∀ i, s.pc ≠ .idle i)
    (hr : runStep .test (!s.m_started) out s.pc s.queues = some r) :
    Inv { s with pc := r.1, queues := r.2 } := by
  obtain ⟨pc', q'⟩ := r
  -- `run` enters `idle()` at its start only
  have hne : ∀ i, i ≠ IdlePc.test → pc' ≠ .idle i := by
    rintro i hi rfl; exact hi (runStep_idle hr)
  have hni : s.m_idled = false := by
    cases hi : s.m_idled
    · rfl
    · rcases h.idled.mp hi with hp | hp | hp <;> exact absurd hp (hpc _)
  refine ⟨by simp [hni, hne], ?_, ?_⟩
  · -- a `concatenate` starts the way to `idle()` with an empty `m_newQueue`
    intro hi e he
    rcases runStep_toIdle hr hi with hq | ⟨hi', hq⟩
    · rw [hq] at he; exact absurd he (by simp)
    · rw [hq] at he; exact h.toIdle hi' e he
  · rintro (hp | hp | hp) <;> exact absurd hp (hne _ (by simp))

/-- The steps of `idle()` keep the invariant, given that the step from the test of `m_notified`
    to the write of `m_idled` is timely. -/
theorem inv_idle {s : State Θ τ} {i : IdlePc} {r : RunPc IdlePc × Flags} {out : TaskState}
    (h : Inv s) (hpc : s.pc = .idle i) (hg : Timely s (.loop out))
    (hr : idleStep i s.toFlags = some r) : Inv { s with pc := r.1, toFlags := r.2 } := by
  have hidled : s.m_idled = true ↔ i = .poll ∨ i = .polling ∨ i = .unset := by
    rw [h.idled, hpc]; simp
  cases i with
  | test =>
    simp only [idleStep, Option.some.injEq] at hr
    subst hr
    have hni : s.m_idled = false := by simpa using hidled
    cases hn : s.m_notified
    · -- to sleep: every queued call has still to look at `m_idled`
      refine ⟨by simp [hni], by simp [ToIdle], fun _ e he => .inl ?_⟩
      obtain ⟨θ, hθ | hθ | hθ⟩ :=
        (h.toIdle (.inr (.inr hpc)) e he).resolve_right (by simp [hn])
      · exact ⟨θ, .inl hθ⟩
      · exact absurd hθ (hg hpc hn e he θ).1
      · exact absurd hθ (hg hpc hn e he θ).2
    · exact ⟨by simp [hni], by simp [ToIdle], by simp [Sleeping]⟩
  | clear =>
    -- back to `run`, whose `concatenate` comes before the next `idle()`
    simp only [idleStep, Option.some.injEq] at hr
    subst hr
    have hni : s.m_idled = false := by simpa using hidled
    exact ⟨by simp [hni], by simp [ToIdle], by simp [Sleeping]⟩
  | set =>
    simp only [idleStep, Option.some.injEq] at hr
    subst hr
    exact ⟨by simp, by simp [ToIdle], fun _ => h.asleep (.inl hpc)⟩
  | poll =>
    simp only [idleStep, Option.some.injEq] at hr
    subst hr
    have hi : s.m_idled = true := by simpa using hidled
    exact ⟨by simp [hi], by simp [ToIdle], fun _ => h.asleep (.inr (.inl hpc))⟩
  | polling => simp [idleStep] at hr
  | unset =>
    simp only [idleStep, Option.some.injEq] at hr
    subst hr
    exact ⟨by simp, by simp [ToIdle], by simp [Sleeping]⟩

variable [DecidableEq Θ]

/-- Queuing a task keeps the invariant: its call has not looked at the flags yet. -/
theorem inv_enqueue {s : State Θ τ} {θ : Θ} {t : τ} (h : Inv s) (hθ : s.thread θ = .idle) :
    Inv { s.goto θ (.testIdled s.calls) with
      queues := s.queues.enqueueNew ⟨t, s.calls⟩, calls := s.calls + 1 } := by
  have hmem : ∀ e ∈ (s.queues.enqueueNew ⟨t, s.calls⟩).m_newQueue,
      e ∈ s.queues.m_newQueue ∨ (s.goto θ (.testIdled s.calls)).thread θ = .testIdled e.call := by
    intro e he
    simp only [Queues.enqueueNew_newQueue, List.mem_append, List.mem_singleton] at he
    rcases he with he | rfl
    · exact .inl he
    · exact .inr (Function.update_self ..)
  refine ⟨h.idled, ?_, ?_⟩
  · intro hi e he
    rcases hmem e he with he | hc
    · exact (h.toIdle hi e he).imp_left fun hu =>
        exists_update hu fun hw => by simp [WillNotify, hθ] at hw
    · exact .inl ⟨θ, .inl hc⟩
  · intro hi e he
    rcases hmem e he with he | hc
    · exact (h.asleep hi e he).imp_left fun hu =>
        exists_update hu fun hw => by simp [WillSignal, hθ] at hw
    · exact .inl ⟨θ, .inl hc⟩

/-- Moving a thread of `tickle()` keeps the invariant, if every call it works on stays a call
    that will notify the loop before it sleeps and signal it while it does. -/
theorem inv_goto {s : State Θ τ} {θ : Θ} {pc : ThreadPc} (h : Inv s)
    (hnotify : ∀ e ∈ s.queues.m_newQueue, ToIdle .test s.pc s.queues →
      WillNotify e.call (s.thread θ) → WillNotify e.call pc ∨ s.m_notified = true)
    (hsignal : ∀ e ∈ s.queues.m_newQueue, Sleeping s.pc →
      WillSignal e.call (s.thread θ) → WillSignal e.call pc ∨ 0 < s.wakeFd) :
    Inv (s.goto θ pc) := by
  refine ⟨h.idled, fun hi e he => ?_, fun hp e he => ?_⟩
  · show (∃ θ', WillNotify e.call (Function.update s.thread θ pc θ')) ∨ s.m_notified = true
    by_cases hn : s.m_notified = true
    · exact .inr hn
    · exact .inl (exists_update ((h.toIdle hi e he).resolve_right hn)
        fun hw => (hnotify e he hi hw).resolve_right hn)
  · show (∃ θ', WillSignal e.call (Function.update s.thread θ pc θ')) ∨ 0 < s.wakeFd
    by_cases hfd : 0 < s.wakeFd
    · exact .inr hfd
    · exact .inl (exists_update ((h.asleep hp e he).resolve_right hfd)
        fun hw => (hsignal e he hp hw).resolve_right hfd)

/-- **A timely `tickle()` is never lost.** Each of its steps keeps the invariant. -/
theorem inv_tickle {s s' : State Θ τ} {θ : Θ} (h : Inv s) (hg : Timely s (.tickle θ))
    (hs : tickleStep s θ (s.thread θ) = some s') : Inv s' := by
  cases hθ : s.thread θ with
  | idle => simp [hθ, tickleStep] at hs
  | testIdled c =>
    simp only [hθ, tickleStep, Option.some.injEq] at hs
    subst hs
    refine inv_goto h (fun e he hi hw => ?_) (fun e he hp hw => ?_)
    · -- on the way to `idle()` the flag is down, and the call goes on to `m_notified`
      obtain rfl : c = e.call := by simpa [WillNotify, hθ] using hw
      simp [WillNotify, h.not_idled hi]
    · obtain rfl : c = e.call := by simpa [WillSignal, hθ] using hw
      -- timely: the loop has already set `m_idled`
      have hi : s.m_idled = true := h.idled.mpr <| by
        rcases hp with hp | hp | hp
        · exact absurd hp (hg e he hθ)
        · exact .inl hp
        · exact .inr (.inl hp)
      simp [WillSignal, hi]
  | write c =>
    simp only [hθ, tickleStep, Option.some.injEq] at hs
    subst hs
    refine ⟨h.idled, fun hi e he => ?_, fun _ e _ => .inr (Nat.succ_pos _)⟩
    exact (h.toIdle hi e he).imp_left fun hu =>
      exists_update hu fun hw => by simp [WillNotify, hθ] at hw
  | testNotified c =>
    simp only [hθ, tickleStep, Option.some.injEq] at hs
    subst hs
    refine inv_goto h (fun e he hi hw => ?_) (fun e he hp hw => ?_)
    · obtain rfl : c = e.call := by simpa [WillNotify, hθ] using hw
      cases hn : s.m_notified <;> simp [WillNotify]
    · simp [WillSignal, hθ] at hw
  | notify c =>
    simp only [hθ, tickleStep, Option.some.injEq] at hs
    subst hs
    refine ⟨h.idled, fun _ e _ => .inr rfl, fun hp e he => ?_⟩
    exact (h.asleep hp e he).imp_left fun hu =>
      exists_update hu fun hw => by simp [WillSignal, hθ] at hw

/-- Every timely step keeps the invariant. -/
theorem inv_step {s s' : State Θ τ} {a : Action Θ τ} (h : Inv s) (hg : Timely s a)
    (hs : step s a = some s') : Inv s' := by
  cases a with
  | enqueue θ t =>
    simp only [step] at hs
    split at hs <;> cases hs
    rename_i hθ
    exact inv_enqueue h hθ
  | callTickle θ =>
    simp only [step] at hs
    split at hs <;> cases hs
    rename_i hθ
    have hgoto : Inv (s.goto θ (.testIdled s.calls)) :=
      inv_goto h (fun e _ _ hw => by simp [WillNotify, hθ] at hw)
        (fun e _ _ hw => by simp [WillSignal, hθ] at hw)
    exact ⟨hgoto.idled, hgoto.toIdle, hgoto.asleep⟩
  | tickle θ => exact inv_tickle h hg hs
  | stop =>
    simp only [step, Option.some.injEq] at hs
    subst hs
    exact ⟨h.idled, h.toIdle, h.asleep⟩
  | loop out =>
    simp only [step, loopStep] at hs
    split at hs
    · rename_i i hpc
      rw [Option.map_eq_some_iff] at hs
      obtain ⟨r, hr, rfl⟩ := hs
      exact inv_idle h hpc hg hr
    · rename_i hpc
      rw [Option.map_eq_some_iff] at hs
      obtain ⟨r, hr, rfl⟩ := hs
      exact inv_run h hpc hr
  | wake signalled =>
    simp only [step] at hs
    split at hs
    · rename_i hpc
      have hi : s.m_idled = true := h.idled.mpr (.inr (.inl hpc))
      have hawake : ∀ fd, Inv { s with wakeFd := fd, pc := .idle .unset } := fun fd =>
        ⟨by simp [hi], by simp [ToIdle], by simp [Sleeping]⟩
      split at hs
      · split at hs <;> cases hs
        exact hawake 0
      · cases hs
        exact hawake s.wakeFd
    · cases hs

/-- **No lost wake-up on timely runs.** In every run whose steps are timely the loop thread is
    never blocked in `poll()`, without a signal to read, on a queued task that was announced. -/
theorem timely_noLostWakeup {s : State Θ τ} (h : (system Θ τ).ReachableUnder Timely s) :
    NoLostWakeup s :=
  (h.invariant (I := Inv) (fun _ h0 => h0 ▸ inv_initial)
    fun _ _ _ hi hg hs => inv_step hi hg hs).noLostWakeup

/-- The trace of a loop that blocks just before a thread queues its first task. -/
def lateEnqueue : List (Action Unit Nat) :=
  List.replicate 8 (.loop .READY) ++ [.enqueue () 7]

/-- The blocked loop of `lateEnqueue`, a timely run: the queued task is still to be announced. -/
theorem timely_noLostWakeup_lateEnqueue :
    ∃ s : State Unit Nat, s.pc = .idle .polling ∧ s.queues.m_newQueue = [⟨7, 0⟩] ∧
      NoLostWakeup s :=
  have hr : (system Unit Nat).exec initial lateEnqueue = some _ := rfl
  have hloop : ∀ s : State Unit Nat, s.queues.m_newQueue = [] → Timely s (.loop .READY) :=
    fun s hq _ _ e he => by rw [hq] at he; cases he
  have hg : (system Unit Nat).Guarded Timely initial lateEnqueue :=
    .cons (hloop _ rfl) rfl <| .cons (hloop _ rfl) rfl <| .cons (hloop _ rfl) rfl <|
    .cons (hloop _ rfl) rfl <| .cons (hloop _ rfl) rfl <| .cons (hloop _ rfl) rfl <|
    .cons (hloop _ rfl) rfl <| .cons (hloop _ rfl) rfl <| .cons trivial rfl trivial
  ⟨_, rfl, rfl, timely_noLostWakeup (.exec (.init rfl) hg hr)⟩

end LimWebserver.EventLoop
