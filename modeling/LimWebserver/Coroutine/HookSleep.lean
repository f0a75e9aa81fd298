import LimWebserver.Coroutine.Hook

namespace LimWebserver.HookSleep

open LimWebserver.Lib
open LimWebserver.Hook (IoFun SysResult Call CallPc Timeout TimeoutPc)

/-!
# Coroutine — `Hook`: tasks that wait and sleep in one event loop

The tasks of one `EventLoop` call `do_io` and `connect` on descriptors, and `sleep`, `usleep` and
`nanosleep`.  The loop runs them, reports events in `idle()`, and the thread of the timers runs
their callbacks at any time.

* `Waking` — an entry of a task queue, with what has put it there;
* `SleepPc`, `SleepTimer` — a hooked sleep, and the timer that it adds;
* `State`, `step` — the loop with its tasks, channels and timers;
* `OwnWakes` — a task is queued once, and what resumes it belongs to the wait it is in;
* `event_ends_sleep` — an event of a descriptor that the task no longer waits for;
* `Awaited` — the condition on the events that leaves this out.
-/

/-- What has put a task into a queue. -/
inductive Cause
  /-- the scheduler -/
  | addTask
  /-- `trigger` of a channel -/
  | trigger (channel : Nat)
  /-- the callback of the timer of a sleep -/
  | timer (timer : Nat)
  deriving DecidableEq, Repr

/-- An entry of a task queue: the task, what has put it there, and how many waits the task had
    begun by then. -/
structure Waking (τ : Type*) where
  task : τ
  cause : Cause
  wait : Nat
  deriving DecidableEq, Repr

/-- The hooked functions that sleep. -/
inductive SleepFun
  | sleep (seconds : UInt32)
  | usleep (usec : UInt32)
  | nanosleep (tv_sec tv_nsec : Int64)
  deriving DecidableEq

/-- The milliseconds that a function passes to `addTimer`. -/
def SleepFun.ms : SleepFun → UInt64
  | .sleep seconds => (seconds * 1000).toUInt64
  | .usleep usec => (usec / 1000).toUInt64
  | .nanosleep tv_sec tv_nsec =>
    -- by way of an `int`
    (tv_sec * 1000 + tv_nsec / 1000 / 1000).toInt32.toInt64.toUInt64

/-- Program points of a hooked sleep; `timer` is the timer that it has added. -/
inductive SleepPc
  /-- `addTimer(ms, [task] { task->wake(); })` -/
  | addTimer (ms : UInt64)
  /-- `Processor::CoHold()` -/
  | coHold (timer : Nat)
  /-- inside `CoHold()` -/
  | held (timer : Nat)
  /-- `return 0;` -/
  | resumed
  deriving DecidableEq, Repr

/-- Where a task stands. -/
inductive TaskPc
  /-- `READY` -/
  | ready
  /-- in the user's code -/
  | exec
  | call (c : Call) (p : CallPc)
  | sleep (p : SleepPc)
  | term
  deriving DecidableEq, Repr

/-- `Task::m_state` -/
def TaskPc.m_state : TaskPc → TaskState
  | .ready => .READY
  | .call _ (.held _) => .HOLD
  | .sleep (.held _) => .HOLD
  | .term => .TERM
  | _ => .EXEC

/-- The callback of a sleep's timer. -/
inductive SleepTimerPc
  /-- in the set of the timers -/
  | armed
  /-- taken out for the callback, `task->wake()` -/
  | wake
  /-- the callback has run -/
  | finished
  deriving DecidableEq, Repr

/-- The timer of a sleep. -/
structure SleepTimer (τ : Type*) where
  ms : UInt64
  task : τ
  pc : SleepTimerPc

/-- An event loop with its tasks; channels and timers are numbered. -/
structure State (τ : Type*) where
  queues : Queues (Waking τ)
  pc : RunPc Unit
  /-- `m_scheduler->m_started` -/
  m_started : Bool
  /-- has been added by the scheduler -/
  added : τ → Bool
  taskPc : τ → TaskPc
  /-- how many waits each task has begun -/
  waits : τ → Nat
  /-- what the last hooked call of each task has returned -/
  returned : τ → Option SysResult
  fdInfo : Nat → FdInfo τ
  nextFdInfo : Nat
  /-- `FdManager` -/
  fds : Nat → Option Nat
  m_channel_map : ChannelMap
  /-- the timeouts of `do_io` and `connect` -/
  timer : Nat → Timeout Unit
  nextTimer : Nat
  sleepTimer : Nat → Option (SleepTimer τ)
  nextSleepTimer : Nat

/-- The steps. -/
inductive Action (τ : Type*)
  /-- the scheduler adds a new task -/
  | addTask (t : τ)
  /-- `Scheduler::start` sets `m_started` -/
  | start
  /-- the next step of `run`, outside the task that runs -/
  | loop
  /-- `epoll_wait` has reported events for a channel -/
  | trigger (channel : Nat) (op : EpollFlag → Bool)
  /-- `idle()` returns -/
  | idle
  /-- user code calls a function that calls `do_io` -/
  | io (t : τ) (f : IoFun) (fd : Nat)
  | connect (t : τ) (fd : Nat)
  | sleep (t : τ) (f : SleepFun)
  /-- the next step of a task's hooked call; `r` is what a system call in it returns -/
  | run (t : τ) (r : SysResult)
  | yield (t : τ)
  /-- the task ends, by an exception or not -/
  | term (t : τ) (except : Bool)
  /-- a new descriptor, and `FdManager::create(fd)` -/
  | create (fd : Nat) (isSocket : Bool)
  | setUserNonblock (fd : Nat) (v : Bool)
  | setSocketTimeout (fd : Nat) (type : TimeoutOption) (ms : UInt64)
  | setTcpConnectTimeout (fd : Nat) (ms : UInt64)
  /-- the timer thread takes a timeout out of the set -/
  | expire (timer : Nat)
  /-- the next step of the callback of a timeout -/
  | callback (timer : Nat)
  /-- the timer thread takes the timer of a sleep out of the set, or runs its callback -/
  | sleepTimer (timer : Nat)

section
variable {τ : Type*} [DecidableEq τ]

namespace State

variable (s : State τ)

/-- The task runs. -/
def runs (t : τ) : Prop := s.pc = .running ∧ s.queues.m_curTask.map Waking.task = some t

/-- The task runs in the user's code. -/
def user (t : τ) : Prop := s.runs t ∧ s.taskPc t = .exec

instance (t : τ) : Decidable (s.runs t) := inferInstanceAs (Decidable (_ ∧ _))

instance (t : τ) : Decidable (s.user t) := inferInstanceAs (Decidable (_ ∧ _))

def goto (t : τ) (pc : TaskPc) : State τ := { s with taskPc := Function.update s.taskPc t pc }

/-- A hooked call returns to the user's code. -/
def ret (t : τ) (r : SysResult) : State τ :=
  { s.goto t .exec with returned := Function.update s.returned t (some r) }

/-- `Task::wake`, or `addTask`, whatever the state of the task. -/
def wake (t : τ) (cause : Cause) : State τ :=
  { s with queues := s.queues.enqueueNew ⟨t, cause, s.waits t⟩ }

/-- The running task swaps out. -/
def swapOut (t : τ) (pc : TaskPc) (out : TaskState) : Option (State τ) :=
  (runStep () (!s.m_started) out .running s.queues).map fun (pc', queues) =>
    { s.goto t pc with pc := pc', queues := queues }

def setFdInfo (i : Nat) (info : FdInfo τ) : State τ :=
  { s with fdInfo := Function.update s.fdInfo i info }

def setTimer (x : Nat) (timer : Timeout Unit) : State τ :=
  { s with timer := Function.update s.timer x timer }

/-- `loop->updateChannel(fdInfo)` -/
def updateChannel (i : Nat) : Option (State τ) :=
  (EpollPoller.updateChannel s.m_channel_map i (s.fdInfo i)).map fun (m, info) =>
    { s.setFdInfo i info with m_channel_map := m }

/-- Set an option of a descriptor. -/
def setOption (fd : Nat) (set : FdInfo τ → FdInfo τ) : Option (State τ) :=
  (s.fds fd).map fun i => s.setFdInfo i (set (s.fdInfo i))

end State

/-- The task that the loop has switched to goes on. -/
def swapInPc : TaskPc → Option TaskPc
  | .ready => some .exec
  | .call c (.held timer) => some (.call c (.cancel timer))
  | .sleep (.held _) => some (.sleep .resumed)
  | _ => none

/-- The next step of `run` while no task runs. -/
def loopStep (s : State τ) : Option (State τ) :=
  if s.pc = .running then none
  else
    (runStep () (!s.m_started) .READY s.pc s.queues).bind fun (pc, queues) =>
      match pc, queues.m_curTask with
      | .running, some e =>
        -- `m_curTask->swapIn()`
        (swapInPc (s.taskPc e.task)).map fun p =>
          { s.goto e.task p with pc := pc, queues := queues }
      | _, _ => some { s with pc := pc, queues := queues }

/-- After the system call would have blocked: with or without a timer. -/
def wait (s : State τ) (t : τ) (c : Call) (ms : UInt64) : State τ :=
  s.goto t (.call c (if ms = -1 then .addEvent none else .addTimer ms))

/-- The next step of `do_io` or `connect`. -/
def callStep (s : State τ) (t : τ) (c : Call) (r : SysResult) : CallPc → Option (State τ)
  | .fun_ =>
    match c.hook, r with
    -- `while (n == -1 && errno == EINTR)` calls it again
    | .do_io _ _, .EINTR => some s
    | .do_io _ ms, .EAGAIN => some (wait s t c ms)
    | .connect, .EINPROGRESS => some (wait s t c (s.fdInfo c.fdInfo).m_tcpConnectTimeout)
    | _, r => some (s.ret t r)
  | .addTimer ms => some { s.setTimer s.nextTimer ⟨ms, (), c.fdInfo, c.event, false, .armed⟩ with
      nextTimer := s.nextTimer + 1
      taskPc := Function.update s.taskPc t (.call c (.addEvent (some s.nextTimer))) }
  | .addEvent timer => some { s.setFdInfo c.fdInfo ((s.fdInfo c.fdInfo).addEvent c.event t) with
      taskPc := Function.update s.taskPc t (.call c (.updateChannel timer))
      waits := Function.update s.waits t (s.waits t + 1) }
  | .updateChannel timer =>
    (s.updateChannel c.fdInfo).map fun s => s.goto t (.call c (.coHold timer))
  | .coHold timer => s.swapOut t (.call c (.held timer)) .HOLD
  | .held _ => none
  | .cancel timer =>
    match timer with
    | none => some (s.goto t (.call c (.expired none)))
    -- the event stays in the channel
    | some x => some ((s.setTimer x (s.timer x).cancel).goto t (.call c (.expired (some x))))
  | .expired timer =>
    if timer.any fun x => (s.timer x).expired then some (s.ret t .ETIMEDOUT)
    else match c.hook with
      -- the loop of `do_io` tries again
      | .do_io _ _ => some (s.goto t (.call c .fun_))
      | .connect => some (s.goto t (.call c .getsockopt))
  | .getsockopt => some (s.ret t r)

/-- The next step of a hooked sleep. -/
def sleepStep (s : State τ) (t : τ) : SleepPc → Option (State τ)
  | .addTimer ms => some { s with
      sleepTimer := Function.update s.sleepTimer s.nextSleepTimer (some ⟨ms, t, .armed⟩)
      nextSleepTimer := s.nextSleepTimer + 1
      taskPc := Function.update s.taskPc t (.sleep (.coHold s.nextSleepTimer))
      waits := Function.update s.waits t (s.waits t + 1) }
  | .coHold timer => s.swapOut t (.sleep (.held timer)) .HOLD
  | .held _ => none
  | .resumed => some (s.ret t (.returns 0))

/-- The next step of the callback of a timeout. -/
def callbackStep (s : State τ) (x : Nat) : TimeoutPc → Option (State τ)
  | .cancelEvent => some ((s.setFdInfo (s.timer x).fdInfo
        ((s.fdInfo (s.timer x).fdInfo).cancelEvent (s.timer x).event)).setTimer x
      { s.timer x with pc := .updateChannel })
  | .updateChannel => (s.updateChannel (s.timer x).fdInfo).map fun s =>
      s.setTimer x { s.timer x with pc := .setExpired }
  | .setExpired => some (s.setTimer x { s.timer x with expired := true, pc := .finished })
  | _ => none

/-- The timer of a sleep, on its way to and through its callback. -/
def sleepTimerStep (s : State τ) (x : Nat) (y : SleepTimer τ) : SleepTimerPc → Option (State τ)
  | .armed => some { s with
      sleepTimer := Function.update s.sleepTimer x (some { y with pc := .wake }) }
  | .wake => some { s.wake y.task (.timer x) with
      sleepTimer := Function.update s.sleepTimer x (some { y with pc := .finished }) }
  | .finished => none

/-- The checks of `do_io` and `connect`: the channel of a descriptor that the hooks handle. -/
def State.hooked (s : State τ) (fd : Nat) : Option Nat :=
  (s.fds fd).filter fun i => (s.fdInfo i).m_isSocket && !(s.fdInfo i).m_userNonblock

/-- One step. -/
def step (s : State τ) : Action τ → Option (State τ)
  | .addTask t =>
    if s.added t then none
    else some { s.wake t .addTask with added := Function.update s.added t true }
  | .start => some { s with m_started := true }
  | .loop => loopStep s
  | .trigger channel op =>
    if s.pc = .idle () then
      match (s.fdInfo channel).trigger op with
      -- no task is registered for the events
      | none => some s
      | some t => some (s.wake t (.trigger channel))
    else none
  | .idle => if s.pc = .idle () then some { s with pc := .afterIdle } else none
  | .io t f fd =>
    if s.user t then
      match s.hooked fd with
      | none => some s
      | some i =>
        some (s.goto t (.call ⟨.do_io f ((s.fdInfo i).getSocketTimeout f.timeout_so), i⟩ .fun_))
    else none
  | .connect t fd =>
    if s.user t then
      if s.fds fd = none then some (s.ret t .EBADF)
      else match s.hooked fd with
        | none => some s
        | some i => some (s.goto t (.call ⟨.connect, i⟩ .fun_))
    else none
  | .sleep t f => if s.user t then some (s.goto t (.sleep (.addTimer f.ms))) else none
  | .run t r =>
    if s.runs t then
      match s.taskPc t with
      | .call c p => callStep s t c r p
      | .sleep p => sleepStep s t p
      | _ => none
    else none
  | .yield t => if s.user t then s.swapOut t .ready .READY else none
  | .term t except =>
    if s.user t then s.swapOut t .term (if except then .EXCEPT else .TERM) else none
  | .create fd isSocket =>
    if s.fds fd = none then some { s with
      fdInfo := Function.update s.fdInfo s.nextFdInfo (.create fd isSocket)
      nextFdInfo := s.nextFdInfo + 1
      fds := Function.update s.fds fd (some s.nextFdInfo) }
    else none
  | .setUserNonblock fd v => s.setOption fd (·.setUserNonblock v)
  | .setSocketTimeout fd type ms => s.setOption fd (·.setSocketTimeout type ms)
  | .setTcpConnectTimeout fd ms => s.setOption fd (·.setTcpConnectTimeout ms)
  | .expire x =>
    match (s.timer x).pc with
    | .armed => some (s.setTimer x { s.timer x with pc := .cancelEvent })
    | _ => none
  | .callback x => callbackStep s x (s.timer x).pc
  | .sleepTimer x => (s.sleepTimer x).bind fun y => sleepTimerStep s x y y.pc

end

/-- A loop whose thread has just been created, and no descriptor. -/
def initial (τ : Type*) : State τ where
  queues := Queues.empty
  pc := .outer
  m_started := false
  added := fun _ => false
  taskPc := fun _ => .ready
  waits := fun _ => 0
  returned := fun _ => none
  fdInfo := fun _ => .create 0 false
  nextFdInfo := 0
  fds := fun _ => none
  m_channel_map := fun _ => none
  timer := fun _ => ⟨0, (), 0, .READ, false, .cancelled⟩
  nextTimer := 0
  sleepTimer := fun _ => none
  nextSleepTimer := 0

variable {τ : Type*} [DecidableEq τ]

/-- The event loop. -/
def system (τ : Type*) [DecidableEq τ] : LTS (State τ) (Action τ) where
  init := fun s => s = initial τ
  step := step

/-! ### The property -/

/-- How often a task is in the queues and the current slot. -/
def occurrences (q : Queues (Waking τ)) (t : τ) : Nat :=
  (q.m_newQueue.map Waking.task).count t + (q.m_runableQueue.map Waking.task).count t +
    if q.m_curTask.map Waking.task = some t then 1 else 0

/-- The callback of the timer of a sleep is still to run. -/
def State.pending (s : State τ) (x : Nat) : Bool :=
  (s.sleepTimer x).any fun y => y.pc ≠ .finished

/-- The task has added the timer of its sleep and has not swapped out yet. -/
def State.onWay (s : State τ) (t : τ) : Prop :=
  s.runs t ∧ ∃ x, s.taskPc t = .sleep (.coHold x)

/-- **What the wakes promise.** -/
structure OwnWakes (s : State τ) : Prop where
  /-- A task is at one place, but for the wake that comes on its way into a sleep. -/
  once : ∀ t, occurrences s.queues t ≤ 1 ∨ s.onWay t ∧ occurrences s.queues t = 2
  /-- A task that holds is resumed by a wake of this hold, and when it sleeps, by the timer of this
      very call. -/
  resumed : ∀ t a s', (s.taskPc t).m_state = .HOLD → step s a = some s' →
    s'.taskPc t ≠ s.taskPc t → ∃ e, s.queues.m_curTask = some e ∧ e.task = t ∧
      e.wait = s.waits t ∧ ∀ x, s.taskPc t = .sleep (.held x) →
        e.cause = .timer x ∧ s.pending x = false

/-- A task receives from a descriptor, then sleeps for ten seconds. -/
def receiveSleep : List (Action Unit) :=
  List.flatten [[.start, .addTask ()], List.replicate 6 .loop, [.create 5 true, .io () .recv 5],
    List.replicate 4 (.run () .EAGAIN), List.replicate 9 .loop,
    [.trigger 0 fun f => f = .EPOLLIN, .idle], List.replicate 5 .loop,
    List.replicate 3 (.run () (.returns 10)), [.sleep () (.sleep 10)],
    List.replicate 2 (.run () (.returns 0)), List.replicate 9 .loop]

/-- The descriptor becomes readable again, and the loop takes the task out of the queue. -/
def nextEvent : List (Action Unit) :=
  [.trigger 0 fun f => f = .EPOLLIN, .idle] ++ List.replicate 4 .loop

/-- **A sleep that an event ends.** The channel still has the event and the task of the call that
    has returned; its timer is armed when the sleep is resumed. -/
theorem event_ends_sleep : ¬ ∀ s : State Unit, (system Unit).Reachable s → OwnWakes s := by
  intro h
  have hr : (system Unit).exec (initial Unit) (receiveSleep ++ nextEvent) = some _ := rfl
  obtain ⟨e, he, -, -, hx⟩ :=
    (h _ (LTS.reachable_of_exec rfl hr)).resumed () .loop _ rfl rfl (by rintro ⟨⟩)
  obtain ⟨-, hpending⟩ := hx 0 rfl
  cases hpending

/-! ### The condition -/

/-- The task is in a queue. -/
def State.Queued (s : State τ) (t : τ) : Prop :=
  t ∈ s.queues.m_newQueue.map Waking.task ∨ t ∈ s.queues.m_runableQueue.map Waking.task

/-- The task holds in `do_io` or `connect`. -/
def TaskPc.inCall : TaskPc → Bool
  | .call _ (.held _) => true
  | _ => false

/-- The condition on the steps: an event wakes a task only while it holds in a call on a descriptor
    and no event has woken it yet. -/
def Awaited (s : State τ) : Action τ → Prop
  | .trigger channel op => ∀ t ∈ (s.fdInfo channel).trigger op,
    (s.taskPc t).inCall = true ∧ ¬ s.Queued t
  | _ => True

instance (s : State τ) (t : τ) : Decidable (s.Queued t) := inferInstanceAs (Decidable (_ ∨ _))

instance (s : State τ) : ∀ a, Decidable (Awaited s a)
  | .trigger _ _ => inferInstanceAs (Decidable (∀ t ∈ _, _))
  | .addTask _ | .start | .loop | .idle | .io _ _ _ | .connect _ _ | .sleep _ _ | .run _ _
  | .yield _ | .term _ _ | .create _ _ | .setUserNonblock _ _ | .setSocketTimeout _ _ _
  | .setTcpConnectTimeout _ _ | .expire _ | .callback _ | .sleepTimer _ =>
    inferInstanceAs (Decidable True)

end LimWebserver.HookSleep
