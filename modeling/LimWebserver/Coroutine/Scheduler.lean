import LimWebserver.Coroutine.Processor
import LimWebserver.Net.EventLoop

namespace LimWebserver.Scheduler

open LimWebserver.Lib

/-!
# Coroutine — `Scheduler`: starting and stopping

The threads of one scheduler: the thread inside `Scheduler::start`, which creates the worker
processors and then runs the main processor itself, one thread for each worker, and a thread that
calls `Scheduler::stop` at any moment.  Acquiring `Scheduler::m_mutex` or a `Processor::m_mutex`,
waiting in a condition variable and joining a thread are steps that may be blocked.

* `Config` — how the scheduler was created and started;
* `step` — the steps of all threads; `Deadlock` — `stop()` is under way and none is enabled;
* `start_stop_deadlock` — `start()` keeps its lock for the whole life of the main processor, so
  a `stop()` that comes after it waits for a thread that waits for `stop()`;
* `Main` / `Inv` — the main processor and the lock in every run; `stop_blocked` — a `stop()` that
  has seen `m_started` never gets the lock;
* `heeded_deadlockFree` — the runs in which no deadlock is reached.
-/

/-- The function that created the scheduler, which decides its main processor. -/
inductive Kind
  /-- `Scheduler::Create`: a `Processor` -/
  | processor
  /-- `Scheduler::CreateNetScheduler`: an `EventLoop` -/
  | eventLoop
  deriving DecidableEq, Repr

/-- How the scheduler is created and started. -/
structure Config where
  kind : Kind
  num_threads : Nat
  /-- `startInNewThread` rather than `start` -/
  inNewThread : Bool
  deriving DecidableEq, Repr

/-- The threads that take locks. -/
inductive Tid
  | starter
  | worker (k : Nat)
  | stopper
  deriving DecidableEq, Repr

/-- Program points of `idle()` in either kind of processor. -/
abbrev IdlePc := Processor.IdlePc ⊕ EventLoop.IdlePc

/-- A processor and the point its thread has reached in `run`. -/
structure Proc (τ : Type*) extends Flags where
  pc : RunPc IdlePc
  queues : Queues τ
  /-- the owner of `Processor::m_mutex` -/
  m_mutex : Option Tid
  /-- the counter of the eventfd of an `EventLoop` -/
  wakeFd : Nat

/-- Program points of `Scheduler::start`. -/
inductive StartPc
  /-- `if (m_started) return;` -/
  | test
  /-- `MutexType::Lock lock(m_mutex);` -/
  | lock
  /-- `m_processors.push_back(m_mainProcessor);` -/
  | pushMain
  /-- the head of the loop that creates the workers, `i` of them done -/
  | spawn (i : Nat)
  /-- `Processor::start` of worker `i`: take its `m_mutex` -/
  | workerLock (i : Nat)
  /-- `Processor::start`: create its thread -/
  | workerCreate (i : Nat)
  /-- `Thread::Create`: wait for the thread to report -/
  | workerWait (i : Nat)
  /-- release its `m_mutex`, `m_processors.push_back(p);` -/
  | workerPush (i : Nat)
  /-- `m_started = true;` -/
  | setStarted
  /-- `m_mainProcessor->run();` -/
  | run
  /-- the end of the scope of `lock` -/
  | unlock
  | done
  deriving DecidableEq, Repr

/-- How far the thread of a worker processor has come. -/
inductive WorkerPc
  | none
  /-- created, has not notified its creator yet -/
  | created
  /-- in `Processor::run` -/
  | running
  deriving DecidableEq, Repr

/-- Program points of `Scheduler::stop`. -/
inductive StopPc
  | notCalled
  /-- `if (!m_started) return;` -/
  | test
  /-- `MutexType::Lock lock(m_mutex);` -/
  | lock
  /-- `m_started = false;` and the release of the lock -/
  | clear
  /-- about to tickle the processor at index `j` of `m_processors` -/
  | tickle (j : Nat)
  /-- inside `tickle()` of a `Processor`, holding its `m_mutex` -/
  | tickleLocked (j : Nat)
  /-- `if (m_thread) m_thread->join();` -/
  | join
  | returned
  deriving DecidableEq, Repr

/-- The scheduler, its processors and the program points of all threads. -/
structure State (τ : Type*) where
  m_started : Bool
  /-- the owner of `Scheduler::m_mutex` -/
  m_mutex : Option Tid
  /-- the ids of the processors in `m_processors`; the main processor has id 0 -/
  m_processors : List Nat
  /-- `startInNewThread` has stored `m_thread` -/
  m_thread : Bool
  proc : Nat → Proc τ
  start : StartPc
  worker : Nat → WorkerPc
  stop : StopPc

/-- The steps of the threads. -/
inductive Action
  /-- the next step of the thread in `start()` -/
  | starter (out : TaskState)
  /-- `startInNewThread` stores the thread that `Thread::Create` returned -/
  | launched
  /-- the next step of the thread of worker `k` -/
  | worker (k : Nat) (out : TaskState)
  /-- `stop()` is called -/
  | call
  /-- the next step of `stop()` -/
  | stopper
  /-- a spurious return of `pthread_cond_wait` in processor `k` -/
  | spurious (k : Nat)
  deriving DecidableEq, Repr

variable {τ : Type*}

/-! ### A processor thread -/

/-- The step at `pc` is a section locked by `Processor::m_mutex`: a call of `stopping()`, or a
    part of `Processor::idle`. -/
def needsLock (q : Queues τ) : RunPc IdlePc → Bool
  | .outer => true
  | .inner => q.m_curTask.isSome
  | .idle (.inl .enter) => true
  | .idle (.inl .waking) => true
  | _ => false

/-- What a step does apart from locking; `epoll_wait` ends with a signal, a socket event or its
    timeout. -/
def procBody (entry : IdlePc) (stopping : Bool) (out : TaskState) (p : Proc τ) :
    Option (Proc τ) :=
  match p.pc with
  | .idle (.inl i) =>
    (Processor.idleStep i p.toFlags).map fun r => { p with pc := r.1.map .inl, toFlags := r.2 }
  -- the timeout of 10 s alone lets the thread of an `EventLoop` go on
  | .idle (.inr .polling) => some { p with pc := .idle (.inr .unset), wakeFd := 0 }
  | .idle (.inr i) =>
    (EventLoop.idleStep i p.toFlags).map fun r => { p with pc := r.1.map .inr, toFlags := r.2 }
  | pc => (runStep entry stopping out pc p.queues).map fun r => { p with pc := r.1, queues := r.2 }

/-- One step of the thread `tid` of a processor: a locked section is entered by taking the
    mutex, blocked while another thread has it, and ends by giving it back. -/
def procStep (entry : IdlePc) (stopping : Bool) (tid : Tid) (out : TaskState) (p : Proc τ) :
    Option (Proc τ) :=
  if needsLock p.queues p.pc then
    match p.m_mutex with
    | none => some { p with m_mutex := some tid }
    | some owner =>
      if owner = tid then
        (procBody entry stopping out p).map fun p' => { p' with m_mutex := none }
      else none
  else procBody entry stopping out p

/-- The first program point of `idle()`. -/
def Kind.entry : Kind → IdlePc
  | .processor => .inl .enter
  | .eventLoop => .inr .test

/-- `Processor::tickle` of a processor whose mutex the caller holds, and its release. -/
def Proc.tickled (p : Proc τ) : Proc τ :=
  let i : RunPc IdlePc := match p.pc with
    | .idle (.inl i) => (Processor.notifyOne (.idle i)).map .inl
    | pc => pc
  if p.m_idled then { p with pc := i, m_mutex := none }
  else { p with m_notified := true, m_mutex := none }

/-- `EventLoop::tickle`, which takes no lock. -/
def Proc.signalled (p : Proc τ) : Proc τ :=
  if p.m_idled then { p with wakeFd := p.wakeFd + 1 } else { p with m_notified := true }

/-- A processor just built; `tasks` were created before the scheduler started. -/
def Proc.fresh (tasks : List τ) : Proc τ where
  m_idled := false
  m_notified := false
  pc := .outer
  queues := { Queues.empty with m_newQueue := tasks }
  m_mutex := none
  wakeFd := 0

/-! ### The system -/

/-- The scheduler with processor `k` replaced. -/
def State.setProc (s : State τ) (k : Nat) (p : Proc τ) : State τ :=
  { s with proc := Function.update s.proc k p }

/-- One step of the thread in `Scheduler::start`. -/
def starterStep (cfg : Config) (out : TaskState) (s : State τ) : Option (State τ) :=
  match s.start with
  | .test => some { s with start := if s.m_started then .done else .lock }
  | .lock =>
    match s.m_mutex with
    | none => some { s with m_mutex := some .starter, start := .pushMain }
    | some _ => none
  | .pushMain => some { s with m_processors := s.m_processors ++ [0], start := .spawn 0 }
  | .spawn i =>
    -- a worker is always a `Processor`, whatever the main one is
    if i < cfg.num_threads - 1 then
      some { s.setProc s.m_processors.length (.fresh []) with start := .workerLock i }
    else some { s with start := .setStarted }
  | .workerLock i =>
    match (s.proc s.m_processors.length).m_mutex with
    | none => some
        { s.setProc s.m_processors.length
            { s.proc s.m_processors.length with m_mutex := some .starter } with
          start := .workerCreate i }
    | some _ => none
  | .workerCreate i => some { s with
      worker := Function.update s.worker s.m_processors.length .created
      start := .workerWait i }
  | .workerWait i =>
    match s.worker s.m_processors.length with
    | .running => some { s with start := .workerPush i }
    | _ => none
  | .workerPush i => some
      { s.setProc s.m_processors.length
          { s.proc s.m_processors.length with m_mutex := none } with
        m_processors := s.m_processors ++ [s.m_processors.length], start := .spawn (i + 1) }
  -- only now, with all workers running
  | .setStarted => some { s with m_started := true, start := .run }
  | .run =>
    match (s.proc 0).pc with
    | .exited => some { s with start := .unlock }
    | _ => (procStep cfg.kind.entry (!s.m_started) .starter out (s.proc 0)).map (s.setProc 0)
  | .unlock => some { s with m_mutex := none, start := .done }
  | .done => none

/-- One step of the thread of worker `k`. -/
def workerStep (k : Nat) (out : TaskState) (s : State τ) : Option (State τ) :=
  match s.worker k with
  | .none => none
  | .created => some { s with worker := Function.update s.worker k .running }
  | .running =>
    (procStep Kind.processor.entry (!s.m_started) (.worker k) out (s.proc k)).map (s.setProc k)

/-- One step of `Scheduler::stop`. -/
def stopperStep (cfg : Config) (s : State τ) : Option (State τ) :=
  match s.stop with
  | .notCalled => none
  | .test => some { s with stop := if s.m_started then .lock else .returned }
  | .lock =>
    match s.m_mutex with
    | none => some { s with m_mutex := some .stopper, stop := .clear }
    | some _ => none
  | .clear => some { s with m_started := false, m_mutex := none, stop := .tickle 0 }
  | .tickle j =>
    match s.m_processors[j]? with
    | none => some { s with stop := .join }
    | some k =>
      -- `tickle()` is virtual
      if k = 0 ∧ cfg.kind = .eventLoop then
        some { s.setProc k (s.proc k).signalled with stop := .tickle (j + 1) }
      else
        match (s.proc k).m_mutex with
        | none => some
            { s.setProc k { s.proc k with m_mutex := some .stopper } with stop := .tickleLocked j }
        | some _ => none
  | .tickleLocked j =>
    match s.m_processors[j]? with
    | none => none
    | some k => some { s.setProc k (s.proc k).tickled with stop := .tickle (j + 1) }
  | .join =>
    if s.m_thread ∧ s.start ≠ .done then none else some { s with stop := .returned }
  | .returned => none

/-- One step of the system. -/
def step (cfg : Config) (s : State τ) : Action → Option (State τ)
  | .starter out => starterStep cfg out s
  | .launched =>
    if cfg.inNewThread ∧ s.m_thread = false then some { s with m_thread := true } else none
  | .worker k out => workerStep k out s
  | .call => match s.stop with
    | .notCalled => some { s with stop := .test }
    | _ => none
  | .stopper => stopperStep cfg s
  | .spurious k =>
    match (s.proc k).pc with
    | .idle (.inl .waiting) => some (s.setProc k { s.proc k with pc := .idle (.inl .waking) })
    | _ => none

/-- A scheduler on which `start` has just been called; `tasks` were created before. -/
def initial (tasks : List τ) : State τ where
  m_started := false
  m_mutex := none
  m_processors := []
  m_thread := false
  proc := fun k => .fresh (if k = 0 then tasks else [])
  start := .test
  worker := fun _ => .none
  stop := .notCalled

/-- The scheduler system. -/
def system (τ : Type*) (cfg : Config) : LTS (State τ) Action where
  init := fun s => ∃ tasks, s = initial tasks
  step := step cfg

/-! ### Deadlock -/

/-- `stop()` has been called, has not returned, and no thread can take a step; a sleeping thread
    cannot count on a spurious wake-up. -/
def Deadlock (cfg : Config) (s : State τ) : Prop :=
  s.stop ≠ .notCalled ∧ s.stop ≠ .returned ∧
    ∀ a, (∀ k, a ≠ .spurious k) → step cfg s a = none

/-- One processor, started without tasks, that falls asleep before `stop()` is called. -/
def sleepThenStop : List Action :=
  List.replicate 13 (.starter .READY) ++ [.call, .stopper]

/-- **Deadlock.** With a base `Processor` as the main one, `start(1)` without tasks and a later
    `stop()` end in a deadlock: the main processor sleeps with `Scheduler::m_mutex` locked. -/
theorem start_stop_deadlock :
    ¬ ∀ (cfg : Config) (s : State Nat), (system Nat cfg).Reachable s → ¬ Deadlock cfg s := by
  intro h
  have hr : (system Nat ⟨.processor, 1, false⟩).exec (initial []) sleepThenStop = some _ := rfl
  refine h _ _ (LTS.reachable_of_exec ⟨[], rfl⟩ hr) ⟨by rintro ⟨⟩, by rintro ⟨⟩, fun a hk => ?_⟩
  cases a with
  | spurious k => exact absurd rfl (hk k)
  | _ => rfl

/-! ### The main processor -/

/-- What holds of the main processor while `start()` runs it. -/
structure Main (kind : Kind) (p : Proc τ) : Prop where
  /-- it has not left `run` -/
  running : p.pc ≠ .exited
  /-- a task runs only when there is one -/
  task : p.pc = .running → p.queues.m_curTask.isSome
  /-- no other thread holds its mutex -/
  mutex : p.m_mutex = none ∨ p.m_mutex = some .starter
  /-- an `EventLoop` never waits in a condition variable -/
  idle : kind = .eventLoop → ∀ i, p.pc ≠ .idle (.inl i)

theorem main_fresh (kind : Kind) (tasks : List τ) : Main kind (Proc.fresh tasks) :=
  ⟨by rintro ⟨⟩, by rintro ⟨⟩, .inl rfl, nofun⟩

variable {kind : Kind} {out : TaskState} {p p' : Proc τ}

/-- A step of the body of the loop, with `m_started` set, keeps the main processor going. -/
theorem main_procBody (h : procBody kind.entry false out p = some p') (hp : Main kind p) :
    Main kind p' := by
  unfold procBody at h
  split at h
  · -- `Processor::idle`: it ends at `afterIdle` and never in an `EventLoop`
    rename_i i hpc
    obtain ⟨r, hr, rfl⟩ := Option.map_eq_some_iff.mp h
    have hkind : kind ≠ .eventLoop := fun hk => hp.idle hk i hpc
    have hto : r.1 = .afterIdle ∨ r.1 = .idle .waiting := by
      cases i <;> simp only [Processor.idleStep] at hr
      · split at hr <;> cases hr <;> simp
      · cases hr
      · cases hr; simp
    refine ⟨?_, ?_, hp.mutex, fun hk => absurd hk hkind⟩ <;>
      rcases hto with hto | hto <;> simp [hto, RunPc.map]
  · cases h
    exact ⟨by simp, by simp, hp.mutex, by simp⟩
  · -- `EventLoop::idle`
    rename_i i _ hpc
    obtain ⟨r, hr, rfl⟩ := Option.map_eq_some_iff.mp h
    have hto : r.1 = .afterIdle ∨ ∃ j, r.1 = .idle j := by
      cases i <;> cases hr <;> simp
    refine ⟨?_, ?_, hp.mutex, fun _ => ?_⟩ <;>
      rcases hto with hto | ⟨j, hto⟩ <;> simp [hto, RunPc.map]
  · -- `run` itself, which leaves its loop only when `m_started` is down
    obtain ⟨⟨pc', q'⟩, hr, rfl⟩ := Option.map_eq_some_iff.mp h
    refine ⟨?_, ?_, hp.mutex, ?_⟩
    · rintro rfl
      exact absurd (runStep_exited hr) (by simp)
    · rintro rfl
      exact runStep_running hr
    · rintro rfl i rfl
      exact absurd (runStep_idle hr) (by rintro ⟨⟩)

/-- Every step of its thread keeps the main processor going. -/
theorem main_procStep (h : procStep kind.entry false .starter out p = some p')
    (hp : Main kind p) : Main kind p' := by
  unfold procStep at h
  split at h
  · split at h
    · cases h
      exact ⟨hp.running, hp.task, .inr rfl, hp.idle⟩
    · split at h
      · obtain ⟨q, hq, rfl⟩ := Option.map_eq_some_iff.mp h
        obtain ⟨hrun, htask, -, hidle⟩ := main_procBody hq hp
        exact ⟨hrun, htask, .inl rfl, hidle⟩
      · cases h
  · exact main_procBody h hp

/-- **Progress.** The thread of a main processor that is an `EventLoop` can always take a
    step. -/
theorem main_eventLoop_isSome (out : TaskState) (hp : Main .eventLoop p) :
    (procStep Kind.eventLoop.entry false .starter out p).isSome := by
  have hbody : (procBody Kind.eventLoop.entry false out p).isSome := by
    unfold procBody
    split
    · rename_i i hpc
      exact absurd hpc (hp.idle rfl i)
    · rfl
    · rename_i i hi _
      cases i with
      | polling => exact absurd rfl hi
      | _ => rfl
    · rename_i hl _ hr
      rw [Option.isSome_map]
      refine runStep_isSome (fun i hi => ?_) hp.running hp.task
      cases i with
      | inl i => exact hl i hi
      | inr i => exact hr i hi
  unfold procStep
  split
  · rcases hp.mutex with hm | hm
    · rw [hm]; rfl
    · rw [hm]
      simpa using hbody
  · exact hbody

/-! ### The scheduler's lock -/

/-- `start()` has not taken the scheduler's lock yet. -/
def StartPc.early : StartPc → Bool
  | .test | .lock => true
  | _ => false

/-- `start()` holds the scheduler's lock and has not set `m_started` yet. -/
def StartPc.preparing : StartPc → Bool
  | .test | .lock | .run | .unlock | .done => false
  | _ => true

/-- The invariant of starting and stopping; `late` is what a `stop()` that waits for the lock is
    known to satisfy. -/
structure Inv (cfg : Config) (late : Prop) (s : State τ) : Prop where
  /-- `m_started` is up exactly while `start()` runs the main processor. -/
  started : s.m_started = true ↔ s.start = .run
  /-- `start()` never gets past the main processor. -/
  ends : s.start ≠ .unlock ∧ s.start ≠ .done
  /-- From its third step on `start()` owns the scheduler's lock. -/
  locked : s.start.early = true ∨ s.m_mutex = some .starter
  /-- `stop()` never gets past that lock. -/
  stopped : s.stop = .notCalled ∨ s.stop = .test ∨ s.stop = .returned ∨
    (s.stop = .lock ∧ s.start = .run ∧ late)
  /-- Once the main processor has its place, no worker gets its id. -/
  processors : s.start.early = true ∨ s.start = .pushMain ∨ s.m_processors ≠ []
  worker : s.worker 0 = .none
  main : Main cfg.kind (s.proc 0)

variable {cfg : Config} {late : Prop} {s s' : State τ}

theorem inv_initial (tasks : List τ) : Inv cfg late (initial tasks) := by
  refine ⟨?_, ⟨by rintro ⟨⟩, by rintro ⟨⟩⟩, .inl rfl, .inl rfl, .inl rfl, rfl, main_fresh _ _⟩
  simp [initial]

/-- Another processor may change freely. -/
theorem Inv.setProc (hI : Inv cfg late s) {k : Nat} (hk : k ≠ 0) (p : Proc τ) :
    Inv cfg late (s.setProc k p) := by
  refine ⟨hI.started, hI.ends, hI.locked, hI.stopped, hI.processors, hI.worker, ?_⟩
  show Main cfg.kind (Function.update s.proc k p 0)
  rw [Function.update_of_ne hk.symm]
  exact hI.main

/-- The main processor may take a step of its own. -/
theorem Inv.setMain (hI : Inv cfg late s) {p : Proc τ} (hp : Main cfg.kind p) :
    Inv cfg late (s.setProc 0 p) := by
  refine ⟨hI.started, hI.ends, hI.locked, hI.stopped, hI.processors, hI.worker, ?_⟩
  show Main cfg.kind (Function.update s.proc 0 p 0)
  rw [Function.update_self]
  exact hp

/-- Between taking the lock and setting `m_started`, `start()` may move on: no `stop()` waits for
    the lock yet. -/
theorem Inv.goto (hI : Inv cfg late s) (pc : StartPc) (l : List Nat)
    (hs : s.start.preparing = true) (hpc : pc.preparing = true) (hl : l ≠ []) :
    Inv cfg late { s with start := pc, m_processors := l } := by
  have hrun : s.start ≠ .run := fun h => by rw [h] at hs; cases hs
  have hlock : s.m_mutex = some .starter :=
    hI.locked.resolve_left fun h => by
      cases hst : s.start <;> rw [hst] at h hs <;> cases h <;> cases hs
  refine ⟨?_, ⟨?_, ?_⟩, .inr hlock, ?_, .inr (.inr hl), hI.worker, hI.main⟩
  · exact ⟨fun h => absurd (hI.started.mp h) hrun, fun h => by cases h; cases hpc⟩
  · rintro rfl; cases hpc
  · rintro rfl; cases hpc
  · rcases hI.stopped with h | h | h | ⟨-, h, -⟩
    · exact .inl h
    · exact .inr (.inl h)
    · exact .inr (.inr (.inl h))
    · exact absurd h hrun

/-- The steps of `start()`. -/
theorem inv_starter (hI : Inv cfg late s) (h : starterStep cfg out s = some s') :
    Inv cfg late s' := by
  unfold starterStep at h
  have hlen : s.start.early = false → s.start ≠ .pushMain → s.m_processors ≠ [] := fun he hp =>
    (hI.processors.resolve_left (by rw [he]; simp)).resolve_left hp
  have hidx : s.m_processors ≠ [] → s.m_processors.length ≠ 0 := by simp
  cases hs : s.start <;> rw [hs] at h hlen <;> simp only at h
  case test =>
    cases h
    -- the first call of `start()`
    have hnot : s.m_started = false := by
      rw [Bool.eq_false_iff]
      intro hst
      rw [hI.started.mp hst] at hs
      cases hs
    rw [hnot]
    refine ⟨?_, ⟨by simp, by simp⟩, .inl rfl, ?_, .inl rfl, hI.worker, hI.main⟩
    · simp
    · simpa [hs] using hI.stopped
  case lock =>
    split at h <;> cases h
    refine ⟨?_, ⟨by simp, by simp⟩, .inr rfl, ?_, .inr (.inl rfl), hI.worker, hI.main⟩
    · simpa [hs] using hI.started
    · simpa [hs] using hI.stopped
  case pushMain =>
    cases h
    exact hI.goto (.spawn 0) _ (hs ▸ rfl) rfl (by simp)
  case spawn i =>
    have hl := hlen rfl (by simp)
    split at h <;> cases h
    · exact (hI.goto (.workerLock i) _ (hs ▸ rfl) rfl hl).setProc (hidx hl) _
    · exact hI.goto .setStarted _ (hs ▸ rfl) rfl hl
  case workerLock i =>
    have hl := hlen rfl (by simp)
    split at h <;> cases h
    exact (hI.goto (.workerCreate i) _ (hs ▸ rfl) rfl hl).setProc (hidx hl) _
  case workerCreate i =>
    have hl := hlen rfl (by simp)
    cases h
    have hI' := hI.goto (.workerWait i) _ (hs ▸ rfl) rfl hl
    refine ⟨hI'.started, hI'.ends, hI'.locked, hI'.stopped, hI'.processors, ?_, hI'.main⟩
    show Function.update s.worker s.m_processors.length .created 0 = .none
    rw [Function.update_of_ne (hidx hl).symm]
    exact hI.worker
  case workerWait i =>
    have hl := hlen rfl (by simp)
    split at h <;> cases h
    exact hI.goto (.workerPush i) _ (hs ▸ rfl) rfl hl
  case workerPush i =>
    have hl := hlen rfl (by simp)
    cases h
    exact (hI.goto (.spawn (i + 1)) _ (hs ▸ rfl) rfl (by simp)).setProc (hidx hl) _
  case setStarted =>
    -- a `stop()` that has seen `m_started` down has returned, and none waits for the lock
    have hl := hlen rfl (by simp)
    cases h
    have hlock := (hI.goto .setStarted _ (hs ▸ rfl) rfl hl).locked
    refine ⟨by simp, ⟨by simp, by simp⟩, .inr (hlock.resolve_left (by rintro ⟨⟩)), ?_,
      .inr (.inr hl),
      hI.worker, hI.main⟩
    rcases hI.stopped with h | h | h | ⟨-, h, -⟩
    · exact .inl h
    · exact .inr (.inl h)
    · exact .inr (.inr (.inl h))
    · rw [hs] at h; cases h
  case run =>
    have hst : s.m_started = true := hI.started.mpr hs
    split at h
    · rename_i hpc
      exact absurd hpc hI.main.running
    · rw [hst] at h
      obtain ⟨p, hp, rfl⟩ := Option.map_eq_some_iff.mp h
      exact hI.setMain (main_procStep hp hI.main)
  case unlock => exact absurd hs hI.ends.1
  case done => exact absurd hs hI.ends.2

/-- The steps of the worker threads. -/
theorem inv_worker {k : Nat} (hI : Inv cfg late s) (h : workerStep k out s = some s') :
    Inv cfg late s' := by
  have hk : s.worker k ≠ .none → k ≠ 0 := by
    rintro hw rfl
    exact hw hI.worker
  unfold workerStep at h
  split at h
  · cases h
  · rename_i hw
    cases h
    refine ⟨hI.started, hI.ends, hI.locked, hI.stopped, hI.processors, ?_, hI.main⟩
    show Function.update s.worker k .running 0 = .none
    rw [Function.update_of_ne (hk (by rw [hw]; simp)).symm]
    exact hI.worker
  · rename_i hw
    obtain ⟨p, -, rfl⟩ := Option.map_eq_some_iff.mp h
    exact hI.setProc (hk (by rw [hw]; simp)) p

/-- The steps of `stop()`: it returns at its first test, or it waits for the lock. -/
theorem inv_stopper (hI : Inv cfg late s) (hlate : s.stop = .test → s.m_started = true → late)
    (h : stopperStep cfg s = some s') : Inv cfg late s' := by
  rcases hI.stopped with hs | hs | hs | ⟨hs, hrun, -⟩
  · simp [stopperStep, hs] at h
  · -- the test of `m_started`, up only while `start()` runs the main processor
    simp only [stopperStep, hs, Option.some.injEq] at h
    subst h
    refine ⟨hI.started, hI.ends, hI.locked, ?_, hI.processors, hI.worker, hI.main⟩
    show (if s.m_started then _ else _) = _ ∨ _
    cases hst : s.m_started
    · simp
    · simp [hI.started.mp hst, hlate hs hst]
  · simp [stopperStep, hs] at h
  · -- the lock is taken
    have hm : s.m_mutex = some .starter := hI.locked.resolve_left (by rw [hrun]; rintro ⟨⟩)
    simp [stopperStep, hs, hm] at h

/-- Every step of the system in which `stop()` tests `m_started` as `late` allows keeps the
    invariant. -/
theorem inv_step {a : Action} (hI : Inv cfg late s)
    (hlate : a = .stopper → s.stop = .test → s.m_started = true → late)
    (h : step cfg s a = some s') : Inv cfg late s' := by
  cases a with
  | starter out => exact inv_starter hI h
  | launched =>
    simp only [step] at h
    split at h <;> cases h
    exact ⟨hI.started, hI.ends, hI.locked, hI.stopped, hI.processors, hI.worker, hI.main⟩
  | worker k out => exact inv_worker hI h
  | call =>
    simp only [step] at h
    split at h <;> cases h
    exact ⟨hI.started, hI.ends, hI.locked, .inr (.inl rfl), hI.processors, hI.worker, hI.main⟩
  | stopper => exact inv_stopper hI (hlate rfl) h
  | spurious k =>
    simp only [step] at h
    split at h <;> cases h
    rename_i hpc
    by_cases hk : k = 0
    · -- an `EventLoop` does not wait in a condition variable
      subst hk
      exact hI.setMain ⟨by simp, by simp, hI.main.mutex,
        fun he => absurd hpc (hI.main.idle he _)⟩
    · exact hI.setProc hk _

/-- **`stop()` is stuck.** In every run, from its test of `m_started` on, a `stop()` that has not
    returned stays at the lock, which `start()` holds until the main processor ends. -/
theorem stop_blocked (h : (system τ cfg).Reachable s) :
    s.stop = .notCalled ∨ s.stop = .test ∨ s.stop = .returned ∨
      (s.stop = .lock ∧ s.start = .run ∧ s.m_mutex = some .starter) := by
  have hI : Inv cfg True s := h.invariant (I := Inv cfg True)
    (by rintro s ⟨tasks, rfl⟩; exact inv_initial tasks)
    fun _ _ _ hI _ hs => inv_step hI (fun _ _ _ => trivial) hs
  rcases hI.stopped with hs | hs | hs | ⟨hs, hrun, -⟩
  · exact .inl hs
  · exact .inr (.inl hs)
  · exact .inr (.inr (.inl hs))
  · exact .inr (.inr (.inr ⟨hs, hrun, hI.locked.resolve_left (by rw [hrun]; rintro ⟨⟩)⟩))

/-! ### Runs without deadlock -/

/-- The condition on a step: when the main processor is not an `EventLoop`, `stop()` tests
    `m_started` before `start()` has set it. -/
def Heeded (cfg : Config) (s : State τ) (a : Action) : Prop :=
  a = .stopper → s.stop = .test → s.m_started = true → cfg.kind = .eventLoop

/-- **Deadlock freedom.** In a run whose steps are all heeded, once `stop()` has been called it
    has returned or some thread can take a step. -/
theorem heeded_deadlockFree (cfg : Config) (s : State τ)
    (h : (system τ cfg).ReachableUnder (Heeded cfg) s) : ¬ Deadlock cfg s := by
  have hI : Inv cfg (cfg.kind = .eventLoop) s := h.invariant (I := Inv cfg (cfg.kind = .eventLoop))
    (by rintro s ⟨tasks, rfl⟩; exact inv_initial tasks)
    fun _ _ _ hI hg hs => inv_step hI hg hs
  rintro ⟨hcall, hret, hstuck⟩
  rcases hI.stopped with hs | hs | hs | ⟨-, hrun, hkind⟩
  · exact hcall hs
  · have := hstuck .stopper (by simp)
    simp [step, stopperStep, hs] at this
  · exact hret hs
  · -- the main processor, an event loop, can go on
    have hmain : Main .eventLoop (s.proc 0) := hkind ▸ hI.main
    have hstep := main_eventLoop_isSome .READY hmain
    have := hstuck (.starter .READY) (by simp)
    simp only [step, starterStep, hrun, hI.started.mpr hrun, hkind, Bool.not_true] at this
    split at this
    · cases this
    · rw [Option.map_eq_none_iff.mp this] at hstep
      cases hstep

/-- An event loop that runs while `stop()` waits for the lock. -/
theorem heeded_deadlockFree_eventLoop :
    ∃ s : State Nat, (system Nat ⟨.eventLoop, 1, false⟩).ReachableUnder
      (Heeded ⟨.eventLoop, 1, false⟩) s ∧ s.stop = .lock ∧ ¬ Deadlock ⟨.eventLoop, 1, false⟩ s := by
  have h0 : (system Nat ⟨.eventLoop, 1, false⟩).init (initial []) := ⟨[], rfl⟩
  have hr : (system Nat ⟨.eventLoop, 1, false⟩).exec (initial []) sleepThenStop = some _ := rfl
  have hreach := (LTS.reachable_of_exec h0 hr).mono (H := Heeded ⟨.eventLoop, 1, false⟩)
    fun _ _ _ _ _ _ => rfl
  exact ⟨_, hreach, rfl, heeded_deadlockFree _ _ hreach⟩

end LimWebserver.Scheduler
