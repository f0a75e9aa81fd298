import LimWebserver.Lib.Transition
import LimWebserver.Coroutine.RunLoop
import LimWebserver.Net.IoChannel

namespace LimWebserver.Hook

open LimWebserver.Lib

/-!
# Coroutine — `Hook`: tasks that wait for a descriptor

A task that calls a hooked function on a socket waits in its event loop until the descriptor is
ready or a timeout timer runs its callback.  Tasks of any number of loops, the thread of the timers
and `epoll_wait` take their steps in any order; each call that the hooks make to a channel, a poller
or a timer is one step.

* `Call`, `CallPc` — `do_io` and `connect`, which differ in what they call, in the event and the
  timeout, and in what follows a wait;
* `ClosePc` — the hooked `close`; `TimeoutPc` — a timeout timer and its callback;
* `State`, `step` — the channels, pollers, timers, queues and tasks;
* `Awake` — a waiting task can still be woken, and is woken by its timeout;
* `timeout_forgets_task` — a timeout whose callback cancels the event and wakes nobody;
* `Woken` — the condition on the steps that leaves this out.
-/

/-- The functions that call `do_io`. -/
inductive IoFun
  | accept | readv | recv | recvfrom | recvmsg | write | writev | send | sendto | sendmsg
  deriving DecidableEq, Repr

/-- The event that a function waits for. -/
def IoFun.event : IoFun → IoEvent
  | .accept | .readv | .recv | .recvfrom | .recvmsg => .READ
  | .write | .writev | .send | .sendto | .sendmsg => .WRITE

/-- The socket option with the function's timeout. -/
def IoFun.timeout_so : IoFun → TimeoutOption
  | .accept | .readv | .recv | .recvfrom | .recvmsg => .SO_RCVTIMEO
  | .write | .writev | .send | .sendto | .sendmsg => .SO_SNDTIMEO

/-- What a system call returns, with `errno` where it fails. -/
inductive SysResult
  | returns (n : Int)
  | EINTR
  | EAGAIN
  | EINPROGRESS
  | EBADF
  | ETIMEDOUT
  /-- any other `errno` -/
  | error (errno : Nat)
  deriving DecidableEq, Repr

/-- The hooked call that a task is in. -/
inductive HookFun
  /-- `do_io` with its timeout -/
  | do_io (fun_ : IoFun) (ms : UInt64)
  | connect
  deriving DecidableEq, Repr

/-- A hooked call on a channel. -/
structure Call where
  hook : HookFun
  fdInfo : Nat
  deriving DecidableEq, Repr

/-- The event that a call waits for. -/
def Call.event (c : Call) : IoEvent :=
  match c.hook with
  | .do_io f _ => f.event
  | .connect => .WRITE

/-- Program points of `do_io` and `connect`; `timer` is the timer of the wait, if any. -/
inductive CallPc
  /-- the system call -/
  | fun_
  /-- `addTimer(ms, ..)` -/
  | addTimer (ms : UInt64)
  /-- `fdInfo->addEvent(event)` -/
  | addEvent (timer : Option Nat)
  /-- `loop->updateChannel(fdInfo)` -/
  | updateChannel (timer : Option Nat)
  /-- `Processor::CoHold()` -/
  | coHold (timer : Option Nat)
  /-- inside `CoHold()` -/
  | held (timer : Option Nat)
  /-- `if (timer) timer->cancel();` -/
  | cancel (timer : Option Nat)
  /-- `if (expired)` -/
  | expired (timer : Option Nat)
  /-- `connect`: `getsockopt(sockfd, SOL_SOCKET, SO_ERROR, ..)` -/
  | getsockopt
  deriving DecidableEq, Repr

/-- Program points of the hooked `close`, with the channel that it has got. -/
inductive ClosePc
  /-- `fdInfo->clearEvent()` -/
  | clearEvent
  /-- `if (loop->hasChannel(fdInfo)) loop->removeChannel(fdInfo);` -/
  | removeChannel
  /-- `FdManager::del(fd)` -/
  | del
  deriving DecidableEq, Repr

/-- Where a task stands. -/
inductive TaskPc
  /-- `READY` -/
  | ready
  /-- in the user's code -/
  | exec
  /-- `HOLD` in the user's code, `sleep` and the like -/
  | hold
  | call (c : Call) (p : CallPc)
  | close (fd fdInfo : Nat) (p : ClosePc)
  | term
  deriving DecidableEq, Repr

/-- `Task::m_state` -/
def TaskPc.m_state : TaskPc → TaskState
  | .ready => .READY
  | .hold => .HOLD
  | .call _ (.held _) => .HOLD
  | .term => .TERM
  | _ => .EXEC

/-- A timeout timer. -/
inductive TimeoutPc
  /-- in the set of the timers -/
  | armed
  /-- taken out for the callback, which begins with `fdInfo->cancelEvent(event)` -/
  | cancelEvent
  /-- `loop->updateChannel(fdInfo)` -/
  | updateChannel
  /-- `expired = true` -/
  | setExpired
  /-- the callback has run -/
  | finished
  /-- cancelled -/
  | cancelled
  deriving DecidableEq, Repr

/-- The callback of the timer has not begun and will run. -/
def TimeoutPc.pending : TimeoutPc → Bool
  | .armed => true
  | .cancelEvent => true
  | _ => false

/-- A timeout timer with what its callback captures. -/
structure Timeout (ℓ : Type*) where
  ms : UInt64
  loop : ℓ
  fdInfo : Nat
  event : IoEvent
  expired : Bool
  pc : TimeoutPc

/-- Channels, pollers, timers and tasks; all of them but the tasks are numbered. -/
structure State (τ ℓ : Type*) where
  fdInfo : Nat → FdInfo τ
  nextFdInfo : Nat
  /-- `FdManager` -/
  fds : Nat → Option Nat
  m_channel_map : ℓ → ChannelMap
  timer : Nat → Timeout ℓ
  nextTimer : Nat
  pc : τ → TaskPc
  /-- the queued tasks of each loop, which takes them in any order -/
  queue : ℓ → List τ
  m_curTask : ℓ → Option τ
  /-- what the last hooked call of each task has returned -/
  returned : τ → Option SysResult

/-- The steps. -/
inductive Action (τ ℓ : Type*)
  /-- user code calls a function that calls `do_io` -/
  | io (t : τ) (f : IoFun) (fd : Nat)
  | connect (t : τ) (fd : Nat)
  | close (t : τ) (fd : Nat)
  /-- the next step of a task's hooked call; `r` is what a system call in it returns -/
  | run (t : τ) (r : SysResult)
  /-- `socket`, `accept` or `pipe` returns a descriptor, and `FdManager::create(fd)` -/
  | create (fd : Nat) (isSocket : Bool)
  | setUserNonblock (fd : Nat) (v : Bool)
  | setSocketTimeout (fd : Nat) (type : TimeoutOption) (ms : UInt64)
  | setTcpConnectTimeout (fd : Nat) (ms : UInt64)
  | yield (t : τ)
  /-- `CoHold()` in the user's code -/
  | hold (t : τ)
  | term (t : τ)
  /-- `wakeupTask` or `addTask` of a task, from anywhere -/
  | wake (t : τ)
  /-- `epoll_wait` reports events for a channel -/
  | trigger (channel : Nat) (op : EpollFlag → Bool)
  /-- the timer thread takes a timer out of the set -/
  | expire (timer : Nat)
  /-- the next step of the callback of a timer -/
  | callback (timer : Nat)
  /-- a loop takes a task out of its queue and switches to it -/
  | swapIn (t : τ)

section
variable {τ ℓ : Type*} [DecidableEq τ] [DecidableEq ℓ] (loopOf : τ → ℓ)

namespace State

def goto (s : State τ ℓ) (t : τ) (pc : TaskPc) : State τ ℓ :=
  { s with pc := Function.update s.pc t pc }

/-- A hooked call returns to the user's code. -/
def ret (s : State τ ℓ) (t : τ) (r : SysResult) : State τ ℓ :=
  { s.goto t .exec with returned := Function.update s.returned t (some r) }

def setFdInfo (s : State τ ℓ) (i : Nat) (info : FdInfo τ) : State τ ℓ :=
  { s with fdInfo := Function.update s.fdInfo i info }

def setTimer (s : State τ ℓ) (x : Nat) (timer : Timeout ℓ) : State τ ℓ :=
  { s with timer := Function.update s.timer x timer }

/-- `wake` of a task, if there is one, into the queue of its loop. -/
def wake (s : State τ ℓ) : Option τ → State τ ℓ
  | none => s
  | some t => { s with
      queue := Function.update s.queue (loopOf t) (s.queue (loopOf t) ++ [t]) }

/-- `loop->updateChannel(fdInfo)` -/
def updateChannel (s : State τ ℓ) (loop : ℓ) (i : Nat) : Option (State τ ℓ) :=
  (EpollPoller.updateChannel (s.m_channel_map loop) i (s.fdInfo i)).map fun (m, info) =>
    { s.setFdInfo i info with m_channel_map := Function.update s.m_channel_map loop m }

/-- `loop->removeChannel(fdInfo)` if the loop has the channel -/
def removeChannel (s : State τ ℓ) (loop : ℓ) (i : Nat) : Option (State τ ℓ) :=
  if EpollPoller.hasChannel (s.m_channel_map loop) i (s.fdInfo i) then
    (EpollPoller.removeChannel (s.m_channel_map loop) i (s.fdInfo i)).map fun (m, info) =>
      { s.setFdInfo i info with m_channel_map := Function.update s.m_channel_map loop m }
  else some s

/-- `FdManager::insert` or `del`: what was there is closed. -/
def setFd (s : State τ ℓ) (fd : Nat) (info : Option Nat) : State τ ℓ :=
  State.wake loopOf { s with fds := Function.update s.fds fd info }
    ((s.fds fd).bind fun i => (s.fdInfo i).close)

/-- The user's code of a task runs. -/
def runs (s : State τ ℓ) (t : τ) : Prop := s.m_curTask (loopOf t) = some t ∧ s.pc t = .exec

instance (s : State τ ℓ) (t : τ) : Decidable (s.runs loopOf t) :=
  inferInstanceAs (Decidable (_ ∧ _))

end State

/-- `timer->cancel()` -/
def Timeout.cancel (x : Timeout ℓ) : Timeout ℓ :=
  match x.pc with
  | .armed => { x with pc := .cancelled }
  | _ => x

/-- After the system call would have blocked: with or without a timer. -/
def wait (s : State τ ℓ) (t : τ) (c : Call) (ms : UInt64) : State τ ℓ :=
  s.goto t (.call c (if ms = -1 then .addEvent none else .addTimer ms))

/-- The next step of `do_io` or `connect`. -/
def callStep (s : State τ ℓ) (t : τ) (c : Call) (r : SysResult) : CallPc → Option (State τ ℓ)
  | .fun_ =>
    match c.hook, r with
    -- the inner loop calls the function again
    | .do_io _ _, .EINTR => some s
    | .do_io _ ms, .EAGAIN => some (wait s t c ms)
    -- `connect` reads its timeout only now
    | .connect, .EINPROGRESS => some (wait s t c (s.fdInfo c.fdInfo).m_tcpConnectTimeout)
    | _, r => some (s.ret t r)
  | .addTimer ms => some { s.setTimer s.nextTimer
        ⟨ms, loopOf t, c.fdInfo, c.event, false, .armed⟩ with
      nextTimer := s.nextTimer + 1
      pc := Function.update s.pc t (.call c (.addEvent (some s.nextTimer))) }
  | .addEvent timer => some ((s.setFdInfo c.fdInfo
      ((s.fdInfo c.fdInfo).addEvent c.event t)).goto t (.call c (.updateChannel timer)))
  | .updateChannel timer =>
    (s.updateChannel (loopOf t) c.fdInfo).map fun s => s.goto t (.call c (.coHold timer))
  | .coHold timer => some { s.goto t (.call c (.held timer)) with
      m_curTask := Function.update s.m_curTask (loopOf t) none }
  | .held _ => none
  | .cancel timer =>
    match timer with
    | none => some (s.goto t (.call c (.expired none)))
    | some x => some ((s.setTimer x (s.timer x).cancel).goto t (.call c (.expired (some x))))
  | .expired timer =>
    if timer.any fun x => (s.timer x).expired then some (s.ret t .ETIMEDOUT)
    else match c.hook with
      -- the loop tries once more, `connect` has no loop
      | .do_io _ _ => some (s.goto t (.call c .fun_))
      | .connect => some (s.goto t (.call c .getsockopt))
  | .getsockopt => some (s.ret t r)

/-- The next step of `close`; its system call comes last. -/
def closeStep (s : State τ ℓ) (t : τ) (fd i : Nat) (r : SysResult) : ClosePc → Option (State τ ℓ)
  | .clearEvent => some ((s.setFdInfo i (s.fdInfo i).clearEvent).goto t
      (.close fd i .removeChannel))
  | .removeChannel => (s.removeChannel (loopOf t) i).map fun s => s.goto t (.close fd i .del)
  | .del => some ((s.setFd loopOf fd none).ret t r)

/-- The next step of the callback of a timeout timer. -/
def callbackStep (s : State τ ℓ) (x : Nat) : TimeoutPc → Option (State τ ℓ)
  | .cancelEvent => some ((s.setFdInfo (s.timer x).fdInfo
        ((s.fdInfo (s.timer x).fdInfo).cancelEvent (s.timer x).event)).setTimer x
      { s.timer x with pc := .updateChannel })
  | .updateChannel => (s.updateChannel (s.timer x).loop (s.timer x).fdInfo).map fun s =>
      s.setTimer x { s.timer x with pc := .setExpired }
  -- nobody is woken
  | .setExpired => some (s.setTimer x { s.timer x with expired := true, pc := .finished })
  | _ => none

/-- The task that a loop has switched to goes on. -/
def swapInPc : TaskPc → Option TaskPc
  | .ready => some .exec
  | .hold => some .exec
  | .call c (.held timer) => some (.call c (.cancel timer))
  | _ => none

/-- One step of the system. -/
def step (s : State τ ℓ) : Action τ ℓ → Option (State τ ℓ)
  | .io t f fd =>
    if s.runs loopOf t then
      match s.fds fd with
      | none => some s
      | some i =>
        -- the system's own function, with no wait
        if !(s.fdInfo i).m_isSocket || (s.fdInfo i).m_userNonblock then some s
        else
          some (s.goto t (.call ⟨.do_io f ((s.fdInfo i).getSocketTimeout f.timeout_so), i⟩ .fun_))
    else none
  | .connect t fd =>
    if s.runs loopOf t then
      match s.fds fd with
      | none => some (s.ret t .EBADF)
      | some i =>
        if !(s.fdInfo i).m_isSocket || (s.fdInfo i).m_userNonblock then some s
        else some (s.goto t (.call ⟨.connect, i⟩ .fun_))
    else none
  | .close t fd =>
    if s.runs loopOf t then
      match s.fds fd with
      | none => some s
      | some i => some (s.goto t (.close fd i .clearEvent))
    else none
  | .run t r =>
    if s.m_curTask (loopOf t) = some t then
      match s.pc t with
      | .call c p => callStep loopOf s t c r p
      | .close fd i p => closeStep loopOf s t fd i r p
      | _ => none
    else none
  | .create fd isSocket => some (State.setFd loopOf { s with
      fdInfo := Function.update s.fdInfo s.nextFdInfo (.create fd isSocket)
      nextFdInfo := s.nextFdInfo + 1 } fd (some s.nextFdInfo))
  | .setUserNonblock fd v =>
    (s.fds fd).map fun i => s.setFdInfo i ((s.fdInfo i).setUserNonblock v)
  | .setSocketTimeout fd type ms =>
    (s.fds fd).map fun i => s.setFdInfo i ((s.fdInfo i).setSocketTimeout type ms)
  | .setTcpConnectTimeout fd ms =>
    (s.fds fd).map fun i => s.setFdInfo i ((s.fdInfo i).setTcpConnectTimeout ms)
  | .yield t =>
    if s.runs loopOf t then some (State.wake loopOf { s.goto t .ready with
      m_curTask := Function.update s.m_curTask (loopOf t) none } (some t))
    else none
  | .hold t =>
    if s.runs loopOf t then some { s.goto t .hold with
      m_curTask := Function.update s.m_curTask (loopOf t) none }
    else none
  | .term t =>
    if s.runs loopOf t then some { s.goto t .term with
      m_curTask := Function.update s.m_curTask (loopOf t) none }
    else none
  | .wake t => some (s.wake loopOf (some t))
  | .trigger channel op => some (s.wake loopOf ((s.fdInfo channel).trigger op))
  | .expire x =>
    -- the callback runs after the timer has left the set, and can no longer be cancelled
    match (s.timer x).pc with
    | .armed => some (s.setTimer x { s.timer x with pc := .cancelEvent })
    | _ => none
  | .callback x => callbackStep s x (s.timer x).pc
  | .swapIn t =>
    -- a task that is queued more than once loses one place only
    match s.m_curTask (loopOf t), swapInPc (s.pc t) with
    | none, some pc =>
      if t ∈ s.queue (loopOf t) then some { s.goto t pc with
        queue := Function.update s.queue (loopOf t) ((s.queue (loopOf t)).erase t)
        m_curTask := Function.update s.m_curTask (loopOf t) (some t) }
      else none
    | _, _ => none

end

/-- No descriptor, no timer, and every task ready to be added to the queue of its loop; `loop` is
    any loop. -/
def initial (τ : Type*) {ℓ : Type*} (loop : ℓ) : State τ ℓ where
  fdInfo := fun _ => .create 0 false
  nextFdInfo := 0
  fds := fun _ => none
  m_channel_map := fun _ _ => none
  timer := fun _ => ⟨0, loop, 0, .READ, false, .cancelled⟩
  nextTimer := 0
  pc := fun _ => .ready
  queue := fun _ => []
  m_curTask := fun _ => none
  returned := fun _ => none

section
variable {τ ℓ : Type*} [DecidableEq τ] [DecidableEq ℓ] (loopOf : τ → ℓ)

/-- The tasks of the loops. -/
def system : LTS (State τ ℓ) (Action τ ℓ) where
  init := fun s => ∃ loop, s = initial τ loop
  step := step loopOf

/-! ### The property -/

/-- The task is in its loop's queue. -/
def State.Queued (s : State τ ℓ) (t : τ) : Prop := t ∈ s.queue (loopOf t)

/-- The event of a call is in its channel, and the poller of a loop has the channel. -/
def State.Listens (s : State τ ℓ) (loop : ℓ) (c : Call) : Prop :=
  (s.fdInfo c.fdInfo).m_events c.event = true ∧ (s.fdInfo c.fdInfo).m_state = .EXIST ∧
    s.m_channel_map loop (s.fdInfo c.fdInfo).m_fd = some c.fdInfo

/-- **What the hooks are for.** -/
structure Awake (s : State τ ℓ) : Prop where
  /-- A waiting task can be woken. -/
  way : ∀ t c timer, s.pc t = .call c (.held timer) →
    s.Listens (loopOf t) c ∨ (∃ x, timer = some x ∧ (s.timer x).pc.pending = true) ∨
      s.Queued loopOf t
  /-- After the callback of its timeout it is woken. -/
  timeout : ∀ t c x, s.pc t = .call c (.held (some x)) → (s.timer x).pc = .finished →
    s.Queued loopOf t
  /-- Then it returns the timeout. -/
  timedOut : ∀ t c x r s', s.pc t = .call c (.expired (some x)) → (s.timer x).pc = .finished →
    step loopOf s (.run t r) = some s' → s'.pc t = .exec ∧ s'.returned t = some .ETIMEDOUT

/-- A task that receives with a timeout of one second, and the timeout. -/
def timeout : List (Action Unit Unit) :=
  [.wake (), .swapIn (), .create 5 true, .setSocketTimeout 5 .SO_RCVTIMEO 1000, .io () .recv 5,
    .run () .EAGAIN, .run () .EAGAIN, .run () .EAGAIN, .run () .EAGAIN, .run () .EAGAIN,
    .expire 0, .callback 0, .callback 0, .callback 0]

/-- **A forgotten task.** After `timeout` the task waits for nothing: the event is cancelled, the
    timer has run, and the queue is empty. -/
theorem timeout_forgets_task :
    ¬ ∀ s : State Unit Unit, (system id).Reachable s → Awake id s := by
  intro h
  have hr : (system (ℓ := Unit) id).exec (initial Unit ()) timeout = some _ := rfl
  rcases (h _ (LTS.reachable_of_exec ⟨(), rfl⟩ hr)).way () ⟨.do_io .recv 1000, 0⟩ (some 0) rfl with
    ⟨he, -⟩ | ⟨x, hx, hp⟩ | hq
  · cases he
  · cases hx
    cases hp
  · cases hq

/-! ### The condition -/

/-- The timer of the wait that a task is in, from `addTimer` until it is resumed. -/
def TaskPc.timer : TaskPc → Option Nat
  | .call _ (.addEvent timer) => timer
  | .call _ (.updateChannel timer) => timer
  | .call _ (.coHold timer) => timer
  | .call _ (.held timer) => timer
  | _ => none

/-- The call of a task that waits for an event, from `addEvent` until it is resumed. -/
def TaskPc.waits : TaskPc → Option Call
  | .call c (.updateChannel _) => some c
  | .call c (.coHold _) => some c
  | .call c (.held _) => some c
  | _ => none

/-- The channel that a task is about to clear in `close`. -/
def TaskPc.clears : TaskPc → Option Nat
  | .close _ i .clearEvent => some i
  | _ => none

/-- The callback of the timer of the task's wait is still to begin. -/
def State.Armed (s : State τ ℓ) (t : τ) : Prop :=
  ∃ x ∈ (s.pc t).timer, (s.timer x).pc.pending = true

/-- The condition on the steps: the callback of a timeout begins only when its own task has been
    queued or has left the wait, and when every other task that waits for this event of the channel
    is queued or has a timer that is still to run; `close` clears a channel only when every task
    that waits for it is. -/
def Woken (s : State τ ℓ) : Action τ ℓ → Prop
  | .callback x => (s.timer x).pc = .cancelEvent →
    (∀ t, (s.pc t).timer = some x → s.Queued loopOf t) ∧
    ∀ t, ∀ c ∈ (s.pc t).waits, c.fdInfo = (s.timer x).fdInfo → c.event = (s.timer x).event →
      s.Queued loopOf t ∨ s.Armed t
  | .run t _ => ∀ i ∈ (s.pc t).clears, ∀ t', ∀ c ∈ (s.pc t').waits, c.fdInfo = i →
      s.Queued loopOf t' ∨ s.Armed t'
  | _ => True

instance (s : State τ ℓ) (t : τ) : Decidable (s.Queued loopOf t) :=
  inferInstanceAs (Decidable (t ∈ _))

instance (s : State τ ℓ) (t : τ) : Decidable (s.Armed t) :=
  inferInstanceAs (Decidable (∃ x ∈ _, _))

instance [Fintype τ] (s : State τ ℓ) : ∀ a, Decidable (Woken loopOf s a)
  | .callback _ => inferInstanceAs (Decidable (_ → _ ∧ _))
  | .run _ _ => inferInstanceAs (Decidable (∀ i ∈ _, _))
  | .io _ _ _ | .connect _ _ | .close _ _ | .create _ _ | .setUserNonblock _ _
  | .setSocketTimeout _ _ _ | .setTcpConnectTimeout _ _ | .yield _ | .hold _ | .term _ | .wake _
  | .trigger _ _ | .expire _ | .swapIn _ => inferInstanceAs (Decidable True)

end

end LimWebserver.Hook
