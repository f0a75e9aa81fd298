import Mathlib.Data.Fintype.Pi
import Mathlib.Data.UInt
import Mathlib.Logic.Function.Basic

namespace LimWebserver

/-!
# Net — channels and the poller

* `FdInfo` — a channel with what the hooks know about its descriptor;
* `addEvent`, `cancelEvent`, `clearEvent`, `trigger`, `close` — its member functions;
* `updateChannel`, `removeChannel`, `hasChannel` — the `EpollPoller`, whose failing assertions end
  the program and are `none` here;
* what these do to a channel that has an event.
-/

/-- The events of a channel. -/
inductive IoEvent
  | READ
  | WRITE
  deriving DecidableEq, Repr

instance : Fintype IoEvent := ⟨{.READ, .WRITE}, fun e => by cases e <;> decide⟩

/-- Whether the poller has a channel. -/
inductive IoChannelState
  | NEW
  | EXIST
  | DISCARD
  deriving DecidableEq, Repr

/-- What `epoll_wait` reports. -/
inductive EpollFlag
  | EPOLLIN
  | EPOLLPRI
  | EPOLLOUT
  | EPOLLERR
  | EPOLLHUP
  | EPOLLRDHUP
  deriving DecidableEq, Repr

/-- The socket options with a timeout. -/
inductive TimeoutOption
  | SO_RCVTIMEO
  | SO_SNDTIMEO
  deriving DecidableEq, Repr

/-- A channel and its descriptor. -/
structure FdInfo (τ : Type*) where
  m_fd : Nat
  m_state : IoChannelState
  /-- the bits of the mask of events -/
  m_events : IoEvent → Bool
  m_task : Option τ
  m_isSocket : Bool
  m_userNonblock : Bool
  m_recvTimeout : UInt64
  m_sendTimeout : UInt64
  m_tcpConnectTimeout : UInt64

namespace FdInfo

variable {τ : Type*}

/-- The constructor; a timeout of `(uint64_t)-1` is none. -/
def create (fd : Nat) (isSocket : Bool) : FdInfo τ where
  m_fd := fd
  m_state := .NEW
  m_events := fun _ => false
  m_task := none
  m_isSocket := isSocket
  m_userNonblock := false
  m_recvTimeout := -1
  m_sendTimeout := -1
  m_tcpConnectTimeout := -1

def isNoneEvent (i : FdInfo τ) : Bool := decide (∀ e, i.m_events e = false)

/-- `addEvent` in a task. -/
def addEvent (i : FdInfo τ) (event : IoEvent) (task : τ) : FdInfo τ :=
  if i.m_events event then i
  else { i with m_task := some task, m_events := Function.update i.m_events event true }

def cancelEvent (i : FdInfo τ) (event : IoEvent) : FdInfo τ :=
  if i.m_events event then { i with m_events := Function.update i.m_events event false } else i

def clearEvent (i : FdInfo τ) : FdInfo τ :=
  if i.isNoneEvent then i else { i with m_events := fun _ => false }

/-- `(EPOLLIN | EPOLLOUT) & m_events` -/
def bits (i : FdInfo τ) : EpollFlag → Bool
  | .EPOLLIN => i.m_events .READ
  | .EPOLLOUT => i.m_events .WRITE
  | _ => false

/-- The task that `trigger` wakes. -/
def trigger (i : FdInfo τ) (op : EpollFlag → Bool) : Option τ :=
  -- the peer has hung up, or an error: every event that is set is reported
  let op := if op .EPOLLHUP && !op .EPOLLIN then fun f => op f || i.bits f else op
  let op := if op .EPOLLERR then fun f => op f || i.bits f else op
  if op .EPOLLIN || op .EPOLLPRI || op .EPOLLRDHUP || op .EPOLLOUT then i.m_task else none

def close (i : FdInfo τ) : Option τ := i.trigger fun f => f = .EPOLLERR

def setUserNonblock (i : FdInfo τ) (v : Bool) : FdInfo τ := { i with m_userNonblock := v }

def setSocketTimeout (i : FdInfo τ) (type : TimeoutOption) (ms : UInt64) : FdInfo τ :=
  match type with
  | .SO_RCVTIMEO => { i with m_recvTimeout := ms }
  | .SO_SNDTIMEO => { i with m_sendTimeout := ms }

def getSocketTimeout (i : FdInfo τ) : TimeoutOption → UInt64
  | .SO_RCVTIMEO => i.m_recvTimeout
  | .SO_SNDTIMEO => i.m_sendTimeout

def setTcpConnectTimeout (i : FdInfo τ) (ms : UInt64) : FdInfo τ :=
  { i with m_tcpConnectTimeout := ms }

end FdInfo

/-! ### `EpollPoller` -/

/-- `m_channel_map`, from descriptors to the identities of channels. -/
abbrev ChannelMap := Nat → Option Nat

namespace EpollPoller

variable {τ : Type*} (m_channel_map : ChannelMap) (channel : Nat) (i : FdInfo τ)

/-- `updateChannel` of the channel `channel`, which holds `i`. -/
def updateChannel : Option (ChannelMap × FdInfo τ) :=
  match i.m_state with
  | .NEW =>
    if m_channel_map i.m_fd = none then
      some (Function.update m_channel_map i.m_fd (some channel), { i with m_state := .EXIST })
    else none
  | .DISCARD =>
    if m_channel_map i.m_fd = some channel then some (m_channel_map, { i with m_state := .EXIST })
    else none
  | .EXIST =>
    -- without events it stays in the map, and only the kernel forgets it
    if m_channel_map i.m_fd = some channel then
      some (m_channel_map, if i.isNoneEvent then { i with m_state := .DISCARD } else i)
    else none

def removeChannel : Option (ChannelMap × FdInfo τ) :=
  -- the assertions
  if m_channel_map i.m_fd = some channel ∧ i.isNoneEvent = true ∧ i.m_state ≠ .NEW then
    some (Function.update m_channel_map i.m_fd none, { i with m_state := .NEW })
  else none

def hasChannel : Bool := m_channel_map i.m_fd = some channel

end EpollPoller

/-! ### Channels with an event -/

section
variable {τ : Type*} {m m' : ChannelMap} {channel : Nat} {i i' : FdInfo τ} {e e' : IoEvent}
  {task : τ}

theorem FdInfo.isNoneEvent_eq_false (h : i.m_events e = true) : i.isNoneEvent = false := by
  rw [isNoneEvent, decide_eq_false_iff_not]
  intro hn
  rw [hn e] at h
  cases h

theorem FdInfo.addEvent_events :
    (i.addEvent e' task).m_events e = (i.m_events e || decide (e = e')) := by
  unfold addEvent
  split
  · -- the event was there
    rename_i he'
    rcases eq_or_ne e e' with rfl | hne
    · simp [he']
    · simp [hne]
  · rcases eq_or_ne e e' with rfl | hne
    · simp
    · simp [hne]

theorem FdInfo.addEvent_state : (i.addEvent e' task).m_state = i.m_state := by
  unfold addEvent; split <;> rfl

theorem FdInfo.addEvent_fd : (i.addEvent e' task).m_fd = i.m_fd := by
  unfold addEvent; split <;> rfl

theorem FdInfo.cancelEvent_events (hne : e ≠ e') :
    (i.cancelEvent e').m_events e = i.m_events e := by
  unfold cancelEvent
  split
  · exact Function.update_of_ne hne _ _
  · rfl

theorem FdInfo.cancelEvent_state : (i.cancelEvent e').m_state = i.m_state := by
  unfold cancelEvent; split <;> rfl

theorem FdInfo.cancelEvent_fd : (i.cancelEvent e').m_fd = i.m_fd := by
  unfold cancelEvent; split <;> rfl

theorem FdInfo.clearEvent_fd : i.clearEvent.m_fd = i.m_fd := by
  unfold clearEvent; split <;> rfl

theorem FdInfo.clearEvent_state : i.clearEvent.m_state = i.m_state := by
  unfold clearEvent; split <;> rfl

theorem FdInfo.clearEvent_isNoneEvent : i.clearEvent.isNoneEvent = true := by
  unfold clearEvent
  split
  · assumption
  · exact decide_eq_true fun _ => rfl

namespace EpollPoller

/-- `updateChannel` leaves the descriptor and the events of the channel alone. -/
theorem updateChannel_info (h : updateChannel m channel i = some (m', i')) :
    i'.m_fd = i.m_fd ∧ i'.m_events = i.m_events := by
  unfold updateChannel at h
  split at h <;> split at h <;> cases h
  · exact ⟨rfl, rfl⟩
  · exact ⟨rfl, rfl⟩
  · split <;> exact ⟨rfl, rfl⟩

/-- A channel with an event is polled after `updateChannel`. -/
theorem updateChannel_exist (h : updateChannel m channel i = some (m', i'))
    (he : i.m_events e = true) : i'.m_state = .EXIST ∧ m' i.m_fd = some channel := by
  unfold updateChannel at h
  split at h <;> split at h <;> cases h
  · exact ⟨rfl, Function.update_self _ _ _⟩
  · exact ⟨rfl, ‹_›⟩
  · rw [FdInfo.isNoneEvent_eq_false he]
    exact ⟨‹_›, ‹_›⟩

/-- `updateChannel` takes no channel out of the map. -/
theorem updateChannel_map (h : updateChannel m channel i = some (m', i')) {fd c : Nat}
    (hm : m fd = some c) : m' fd = some c := by
  unfold updateChannel at h
  split at h <;> split at h <;> cases h
  · -- a new channel comes under a descriptor that nobody has
    rename_i hnone
    rw [Function.update_of_ne]
    · exact hm
    · rintro rfl
      rw [hnone] at hm
      cases hm
  · exact hm
  · exact hm

/-- `updateChannel` puts no other channel into the map. -/
theorem updateChannel_only (h : updateChannel m channel i = some (m', i')) {fd c : Nat}
    (hm : m' fd = some c) : m fd = some c ∨ fd = i.m_fd ∧ c = channel := by
  unfold updateChannel at h
  split at h <;> split at h <;> cases h
  · by_cases hfd : fd = i.m_fd
    · rw [hfd, Function.update_self] at hm
      exact .inr ⟨hfd, (Option.some.inj hm).symm⟩
    · rw [Function.update_of_ne hfd] at hm
      exact .inl hm
  · exact .inl hm
  · exact .inl hm

/-- `removeChannel` only takes out what is under the descriptor of the channel. -/
theorem removeChannel_only (h : removeChannel m channel i = some (m', i')) :
    m' = Function.update m i.m_fd none := by
  unfold removeChannel at h
  split at h <;> cases h
  rfl

/-- `removeChannel` takes out a channel without events. -/
theorem removeChannel_spec (h : removeChannel m channel i = some (m', i')) :
    i.isNoneEvent = true ∧ i'.m_fd = i.m_fd ∧ i'.m_events = i.m_events ∧
      ∀ fd c, m fd = some c → c ≠ channel → m' fd = some c := by
  unfold removeChannel at h
  split at h <;> cases h
  rename_i hc
  refine ⟨hc.2.1, rfl, rfl, fun fd c hm hne => ?_⟩
  rw [Function.update_of_ne]
  · exact hm
  · rintro rfl
    exact hne (Option.some.inj (hm.symm.trans hc.1))

end EpollPoller

end

end LimWebserver
