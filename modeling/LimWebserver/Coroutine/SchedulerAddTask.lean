import LimWebserver.Coroutine.Scheduler

namespace LimWebserver.Scheduler

open LimWebserver.Lib

/-!
# Coroutine — `Scheduler`: who gets a new task

`Scheduler::addTask` gives a task to a processor that is activated, and nothing ever deactivates
one.  Whether the thread of this processor still runs depends on how `Scheduler::start` went: the
worker threads test `m_started`, which is set behind the loop that creates them.

* `addTask` — the choice of the processor;
* `Alive` — before `stop()`, no processor has left `run` and `addTask` chooses none that has;
* `start_kills_worker` — a worker that tests `m_started` too early is dead and still gets tasks;
* `Punctual` / `punctual_alive` — the runs in which this does not happen.
-/

variable {τ : Type*}

/-- The loop of `addTask`, with `i` rounds to go: the first activated processor from `idx` on. -/
def nextActivated (m_activated : Nat → Bool) (m_processors : List Nat) : Nat → Nat → Option Nat
  | 0, _ => none
  | i + 1, idx =>
    match m_processors[idx % m_processors.length]? with
    | none => none
    | some k =>
      if m_activated k then some k
      else nextActivated m_activated m_processors i (idx % m_processors.length + 1)

/-- `Scheduler::addTask`: the processor that the task is given to. `processor` is the one the task
    has run on, `current` the one of the calling thread if it is a processor of this scheduler;
    the constructor leaves `m_lastActiveIdx` as it is. -/
def addTask (m_activated : Nat → Bool) (m_lastActiveIdx : Nat) (m_processors : List Nat)
    (processor current : Option Nat) : Nat :=
  match processor.filter m_activated with
  | some k => k
  | none =>
    match current.filter m_activated with
    | some k => k
    | none =>
      match nextActivated m_activated m_processors m_processors.length m_lastActiveIdx with
      | some k => k
      | none => 0

/-- Until `stop()` is called, every processor in `m_processors` is in `run`, and so is the one that
    `addTask` chooses. -/
def Alive (s : State τ) : Prop :=
  s.stop = .notCalled →
    (∀ k ∈ s.m_processors, (s.proc k).pc ≠ .exited) ∧
      ∀ m_activated m_lastActiveIdx processor current,
        (s.proc (addTask m_activated m_lastActiveIdx s.m_processors processor current)).pc ≠
          .exited

/-- `start(2)`; the thread of the worker tests `m_started` before it is set. -/
def earlyTest : List Action :=
  List.replicate 6 (.starter .READY) ++ [.worker 1 .READY] ++ List.replicate 2 (.starter .READY) ++
    List.replicate 2 (.worker 1 .READY)

/-- **A dead worker.** It is in `m_processors` and activated, and `addTask` chooses it. -/
theorem start_kills_worker :
    ¬ ∀ (cfg : Config) (s : State Nat), 1 ≤ cfg.num_threads → (system Nat cfg).Reachable s →
      Alive s := by
  intro h
  have hr : (system Nat ⟨.processor, 2, false⟩).exec (initial []) earlyTest = some _ := rfl
  have halive := h ⟨.processor, 2, false⟩ _ (by decide) (LTS.reachable_of_exec ⟨[], rfl⟩ hr) rfl
  exact halive.2 (fun _ => true) 1 none none rfl

/-! ### The condition -/

/-- The condition on a step: a worker thread that evaluates `stopping()` in the head of its outer
    loop does so after `start()` has set `m_started`, or `stop()` has been called. -/
def Punctual (s : State τ) (a : Action) : Prop :=
  ∀ k out, a = .worker k out → (s.proc k).pc = .outer → (s.proc k).m_mutex = some (.worker k) →
    s.stop = .notCalled → s.m_started = true

section

variable {cfg : Config} {entry : IdlePc} {stopping : Bool} {tid : Tid} {out : TaskState}
  {p p' : Proc τ} {s s' : State τ}

/-- A processor leaves `run` at the head of its outer loop only. -/
theorem procBody_exited (h : procBody entry stopping out p = some p') (hp : p'.pc = .exited) :
    p.pc = .outer ∧ stopping = true := by
  unfold procBody at h
  split at h
  · -- inside `idle()` of a `Processor`
    obtain ⟨r, hr, rfl⟩ := Option.map_eq_some_iff.mp h
    rename_i i _
    cases i with
    | enter =>
      simp only [Processor.idleStep] at hr
      split at hr
      all_goals
        obtain rfl := Option.some.inj hr
        exact absurd hp (by simp [RunPc.map])
    | waiting => exact absurd hr (by simp [Processor.idleStep])
    | waking =>
      obtain rfl := Option.some.inj hr
      exact absurd hp (by simp [RunPc.map])
  · obtain rfl := Option.some.inj h
    exact absurd hp (by simp)
  · -- inside `idle()` of an `EventLoop`
    obtain ⟨r, hr, rfl⟩ := Option.map_eq_some_iff.mp h
    rename_i i hpoll _
    have hto : r.1 = .afterIdle ∨ ∃ j, r.1 = .idle j := by
      cases i <;> cases hr <;> simp
    rcases hto with hto | ⟨j, hto⟩ <;> exact absurd hp (by simp [hto, RunPc.map])
  · obtain ⟨⟨pc, q⟩, hr, rfl⟩ := Option.map_eq_some_iff.mp h
    obtain rfl : pc = .exited := hp
    exact runStep_into hr

theorem procStep_exited (h : procStep entry stopping tid out p = some p') (hp : p'.pc = .exited) :
    p.pc = .exited ∨ (p.pc = .outer ∧ p.m_mutex = some tid ∧ stopping = true) := by
  unfold procStep at h
  split at h
  case isTrue hlock =>
    split at h
    · obtain rfl := Option.some.inj h
      exact .inl hp
    · split at h
      case isTrue howner =>
        obtain ⟨p₁, hbody, rfl⟩ := Option.map_eq_some_iff.mp h
        obtain ⟨hpc, hstop⟩ := procBody_exited hbody hp
        exact .inr ⟨hpc, by rw [← howner]; assumption, hstop⟩
      case isFalse => exact absurd h (by simp)
  case isFalse hlock =>
    obtain ⟨hpc, -⟩ := procBody_exited h hp
    rw [hpc] at hlock
    exact absurd rfl hlock

/-- A test that is not punctual ends its worker. -/
theorem exited_of_early {k : Nat} (hw : s.worker k = .running) (hpc : (s.proc k).pc = .outer)
    (hmutex : (s.proc k).m_mutex = some (.worker k)) (hst : s.m_started = false)
    (h : step cfg s (.worker k out) = some s') : (s'.proc k).pc = .exited := by
  simp only [step, workerStep, hw, hst] at h
  obtain ⟨p, hp, rfl⟩ := Option.map_eq_some_iff.mp h
  show (Function.update s.proc k p k).pc = .exited
  rw [Function.update_self]
  simp only [procStep, hpc, needsLock, hmutex, if_true, procBody, runStep, Option.map_some,
    Bool.not_false, Option.some.injEq] at hp
  rw [← hp]

/-- No processor has left `run`. -/
def Running (s : State τ) : Prop := ∀ k, (s.proc k).pc ≠ .exited

theorem Running.setProc (hR : Running s) {k : Nat} (hp : p.pc ≠ .exited) :
    Running (s.setProc k p) := by
  intro j
  show (Function.update s.proc k p j).pc ≠ .exited
  rcases eq_or_ne j k with rfl | hne
  · rwa [Function.update_self]
  · rw [Function.update_of_ne hne]
    exact hR j

/-- `start()` does not touch the calls of `stop()`. -/
theorem stop_starter (h : starterStep cfg out s = some s') : s'.stop = s.stop := by
  unfold starterStep at h
  cases hs : s.start <;> rw [hs] at h <;> simp only at h
  case run =>
    split at h
    · obtain rfl := Option.some.inj h
      rfl
    · obtain ⟨p, -, rfl⟩ := Option.map_eq_some_iff.mp h
      rfl
  case spawn i =>
    split at h <;> obtain rfl := Option.some.inj h <;> rfl
  case lock | workerLock i | workerWait i =>
    split at h
    · obtain rfl := Option.some.inj h
      rfl
    · exact absurd h (by simp)
  case done => exact absurd h (by simp)
  all_goals
    obtain rfl := Option.some.inj h
    rfl

theorem stop_worker {k : Nat} (h : workerStep k out s = some s') : s'.stop = s.stop := by
  unfold workerStep at h
  split at h
  · exact absurd h (by simp)
  · obtain rfl := Option.some.inj h
    rfl
  · obtain ⟨p, -, rfl⟩ := Option.map_eq_some_iff.mp h
    rfl

/-- A call of `stop()` goes on, and does not begin again. -/
theorem stop_stopper (h : stopperStep cfg s = some s') : s'.stop ≠ .notCalled := by
  unfold stopperStep at h
  cases hs : s.stop <;> rw [hs] at h <;> simp only at h
  case notCalled | returned => exact absurd h (by simp)
  case test =>
    obtain rfl := Option.some.inj h
    show (if s.m_started then StopPc.lock else .returned) ≠ .notCalled
    split_ifs <;> simp
  case lock =>
    split at h
    · obtain rfl := Option.some.inj h
      simp
    · exact absurd h (by simp)
  case clear =>
    obtain rfl := Option.some.inj h
    simp
  case tickle j =>
    split at h
    · obtain rfl := Option.some.inj h
      simp
    · split at h
      · obtain rfl := Option.some.inj h
        simp
      · split at h
        · obtain rfl := Option.some.inj h
          simp
        · exact absurd h (by simp)
  case tickleLocked j =>
    split at h
    · exact absurd h (by simp)
    · obtain rfl := Option.some.inj h
      simp
  case join =>
    split_ifs at h
    obtain rfl := Option.some.inj h
    simp

/-- Once `stop()` has been called, it stays called. -/
theorem step_notCalled {a : Action} (h : step cfg s a = some s') (hcall : s'.stop = .notCalled) :
    s.stop = .notCalled := by
  cases a with
  | starter out => rw [← stop_starter h, hcall]
  | worker k out => rw [← stop_worker h, hcall]
  | stopper => exact absurd hcall (stop_stopper h)
  | launched =>
    simp only [step] at h
    split_ifs at h
    obtain rfl := Option.some.inj h
    exact hcall
  | call =>
    simp only [step] at h
    split at h
    · assumption
    · exact absurd h (by simp)
  | spurious k =>
    simp only [step] at h
    split at h
    · obtain rfl := Option.some.inj h
      exact hcall
    · exact absurd h (by simp)

/-- `start()` runs the main processor with `m_started` set. -/
theorem running_starter (hI : Inv cfg True s) (hR : Running s)
    (h : starterStep cfg out s = some s') : Running s' := by
  unfold starterStep at h
  cases hs : s.start <;> rw [hs] at h <;> simp only at h
  case run =>
    have hst : s.m_started = true := hI.started.mpr hs
    split at h
    · exact absurd ‹_› (hR 0)
    · obtain ⟨p, hp, rfl⟩ := Option.map_eq_some_iff.mp h
      apply hR.setProc
      intro hexit
      rcases procStep_exited hp hexit with hpc | ⟨-, -, hstop⟩
      · exact hR 0 hpc
      · rw [hst] at hstop
        exact absurd hstop (by decide)
  case spawn i =>
    split at h <;> obtain rfl := Option.some.inj h
    · exact hR.setProc (p := .fresh []) (by simp [Proc.fresh])
    · exact hR
  case workerLock i =>
    split at h
    · obtain rfl := Option.some.inj h
      exact hR.setProc (hR _)
    · exact absurd h (by simp)
  case workerPush i =>
    obtain rfl := Option.some.inj h
    exact hR.setProc (hR _)
  case lock | workerWait i =>
    split at h
    · obtain rfl := Option.some.inj h
      exact hR
    · exact absurd h (by simp)
  case done => exact absurd h (by simp)
  all_goals
    obtain rfl := Option.some.inj h
    exact hR

/-- **One step.** A punctual step before `stop()` ends no processor. -/
theorem running_step {a : Action} (hI : Inv cfg True s) (hg : Punctual s a)
    (hR : s.stop = .notCalled → Running s) (h : step cfg s a = some s') :
    s'.stop = .notCalled → Running s' := by
  intro hcall
  have hs := step_notCalled h hcall
  replace hR := hR hs
  cases a with
  | starter out => exact running_starter hI hR h
  | launched =>
    simp only [step] at h
    split_ifs at h
    obtain rfl := Option.some.inj h
    exact hR
  | worker k out =>
    simp only [step, workerStep] at h
    split at h
    · exact absurd h (by simp)
    · obtain rfl := Option.some.inj h
      exact hR
    · obtain ⟨p, hp, rfl⟩ := Option.map_eq_some_iff.mp h
      apply hR.setProc
      intro hexit
      rcases procStep_exited hp hexit with hpc | ⟨hpc, hmutex, hstop⟩
      · exact hR k hpc
      · -- the test that ends a worker has seen `m_started` down
        rw [hg k out rfl hpc hmutex hs] at hstop
        exact absurd hstop (by decide)
  | call =>
    simp only [step, hs] at h
    obtain rfl := Option.some.inj h
    exact absurd hcall (by simp)
  | stopper =>
    simp only [step, stopperStep, hs] at h
    exact absurd h (by simp)
  | spurious k =>
    simp only [step] at h
    split at h
    · obtain rfl := Option.some.inj h
      exact hR.setProc (by simp)
    · exact absurd h (by simp)

/-- **Live processors.** In a run whose steps are all punctual, until `stop()` is called no
    processor has left `run`, and `addTask` chooses none that has. -/
theorem punctual_alive (h : (system τ cfg).ReachableUnder Punctual s) : Alive s := by
  have hI : Inv cfg True s ∧ (s.stop = .notCalled → Running s) := by
    refine h.invariant (I := fun s => Inv cfg True s ∧ (s.stop = .notCalled → Running s)) ?_ ?_
    · rintro s ⟨tasks, rfl⟩
      exact ⟨inv_initial tasks, fun _ k => by simp [initial, Proc.fresh]⟩
    · intro s a s' hI hg hs
      exact ⟨inv_step hI.1 (fun _ _ _ => trivial) hs, running_step hI.1 hg hI.2 hs⟩
  intro hcall
  exact ⟨fun k _ => hI.2 hcall k, fun _ _ _ _ => hI.2 hcall _⟩

/-- `start(2)`; the thread of the worker tests `m_started` after it has been set. -/
def lateTest : List Action :=
  List.replicate 6 (.starter .READY) ++ [.worker 1 .READY] ++ List.replicate 4 (.starter .READY) ++
    List.replicate 2 (.worker 1 .READY)

instance (s : State τ) (a : Action) : Decidable (Punctual s a) :=
  match a with
  | .worker k _ =>
    decidable_of_iff ((s.proc k).pc = .outer → (s.proc k).m_mutex = some (.worker k) →
      s.stop = .notCalled → s.m_started = true)
      ⟨fun h _ _ he => by cases he; exact h, fun h => h k _ rfl⟩
  | .starter _ | .launched | .call | .stopper | .spurious _ => .isTrue fun _ _ he => by cases he

/-- A worker that is in its loop. -/
theorem punctual_alive_lateTest :
    ∃ s : State Nat, (system Nat ⟨.processor, 2, false⟩).ReachableUnder Punctual s ∧
      (s.proc 1).pc = .dequeue true ∧ Alive s := by
  have hr : (system Nat ⟨.processor, 2, false⟩).exec (initial []) lateTest = some _ := rfl
  have h0 : (system Nat ⟨.processor, 2, false⟩).init (initial []) := ⟨[], rfl⟩
  have hg : (system Nat ⟨.processor, 2, false⟩).Guarded Punctual (initial []) lateTest := by decide
  have hreach := LTS.ReachableUnder.exec (.init h0) hg hr
  exact ⟨_, hreach, rfl, punctual_alive hreach⟩

end

end LimWebserver.Scheduler
