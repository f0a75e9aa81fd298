import LimWebserver.Lib.Transition
import LimWebserver.Net.IoChannel

namespace LimWebserver.EpollPoller

open LimWebserver.Lib

/-!
# Net — the books of `EpollPoller`

Whether a channel is polled is written in three places: in the state of the channel, in
`m_channel_map`, and in the epoll set of the kernel.

* `epoll_ctl` — what the kernel does;
* `State`, `step` — channels, the poller, and the calls of a program that presents a channel for the
  first time only when no other channel of its descriptor is registered, and a removed one never
  again;
* `Bookkept` — the three places agree, no assertion has failed and no `epoll_ctl` either;
* `reachable_bookkept` — after every sequence of calls.
-/

inductive EpollOp
  | EPOLL_CTL_ADD
  | EPOLL_CTL_MOD
  | EPOLL_CTL_DEL
  deriving DecidableEq, Repr

/-- `epoll_event`, of which `EPOLLET` is always set. -/
structure EpollEvent where
  events : IoEvent → Bool
  /-- the channel -/
  ptr : Nat
  deriving DecidableEq

/-- The epoll set of the kernel. -/
abbrev EpollSet := Nat → Option EpollEvent

/-- `epoll_ctl`, which fails with `EEXIST` or `ENOENT`. -/
def epoll_ctl (set : EpollSet) (op : EpollOp) (fd : Nat) (ev : EpollEvent) : Option EpollSet :=
  match op with
  | .EPOLL_CTL_ADD => if set fd = none then some (Function.update set fd (some ev)) else none
  | .EPOLL_CTL_MOD => if set fd = none then none else some (Function.update set fd (some ev))
  | .EPOLL_CTL_DEL => if set fd = none then none else some (Function.update set fd none)

variable {τ : Type*}

/-- The operation that `updateChannel` passes to `update`. -/
def updateOp (i : FdInfo τ) : EpollOp :=
  match i.m_state with
  | .NEW | .DISCARD => .EPOLL_CTL_ADD
  | .EXIST => if i.isNoneEvent then .EPOLL_CTL_DEL else .EPOLL_CTL_MOD

/-- `addEvent` where `GetCurrentTask()` is `task`. -/
def addEventOf (i : FdInfo τ) (event : IoEvent) : Option τ → FdInfo τ
  | some task => i.addEvent event task
  | none =>
    -- outside a task `m_task` keeps its value
    if i.m_events event then i
    else { i with m_events := Function.update i.m_events event true }

/-- The poller, its kernel set, the channels, and what has been done with them. -/
structure State (τ : Type*) where
  m_channel_map : ChannelMap
  epoll : EpollSet
  /-- the channel objects -/
  channels : Nat → Option (FdInfo τ)
  /-- the next channel object -/
  next : Nat
  /-- has been presented by `updateChannel` -/
  registered : Nat → Bool
  /-- has been taken out by `removeChannel` -/
  removed : Nat → Bool
  /-- the events at the last `updateChannel` -/
  updated : Nat → IoEvent → Bool
  /-- an assertion has failed -/
  failed : Bool
  /-- an `epoll_ctl` has failed -/
  illegal : Bool

namespace State

variable (s : State τ)

def setChannel (c : Nat) (i : FdInfo τ) : State τ :=
  { s with channels := Function.update s.channels c (some i) }

/-- `update(op, channel)` -/
def update (op : EpollOp) (c : Nat) (i : FdInfo τ) : State τ :=
  match epoll_ctl s.epoll op i.m_fd ⟨i.m_events, c⟩ with
  | some set => { s with epoll := set }
  | none => { s with illegal := true }

def updateChannel (c : Nat) (i : FdInfo τ) : State τ :=
  match EpollPoller.updateChannel s.m_channel_map c i with
  | none => { s with failed := true }
  | some (m, i') =>
    -- the operation is chosen by the state before the call
    { (s.update (updateOp i) c i).setChannel c i' with
      m_channel_map := m
      registered := Function.update s.registered c true
      updated := Function.update s.updated c i.m_events }

def removeChannel (c : Nat) (i : FdInfo τ) : State τ :=
  match EpollPoller.removeChannel s.m_channel_map c i with
  | none => { s with failed := true }
  | some (m, i') =>
    -- a discarded channel is in the map, and no longer in the kernel
    { (if i.m_state = .EXIST then s.update .EPOLL_CTL_DEL c i else s).setChannel c i' with
      m_channel_map := m
      removed := Function.update s.removed c true }

/-- What the hooked `close` does with the channel. -/
def remove (c : Nat) (i : FdInfo τ) : State τ :=
  let i := i.clearEvent
  let s := s.setChannel c i
  if hasChannel s.m_channel_map c i then s.removeChannel c i else s

/-- A channel may be presented when it has not been removed, and for the first time when each other
    channel of its descriptor has been removed or never registered. -/
def Presentable (c : Nat) (i : FdInfo τ) : Prop :=
  s.removed c = false ∧ (s.registered c = true ∨ ∀ c' < s.next,
    (s.channels c').map FdInfo.m_fd = some i.m_fd → s.registered c' = true → s.removed c' = true)

instance (c : Nat) (i : FdInfo τ) : Decidable (s.Presentable c i) :=
  inferInstanceAs (Decidable (_ ∧ (_ ∨ _)))

end State

/-- The calls. -/
inductive Action (τ : Type*)
  /-- a channel object for `fd` is created -/
  | create (fd : Nat) (isSocket : Bool)
  | addEvent (c : Nat) (event : IoEvent) (task : Option τ)
  | cancelEvent (c : Nat) (event : IoEvent)
  | clearEvent (c : Nat)
  | updateChannel (c : Nat)
  /-- `clearEvent`, `hasChannel` and `removeChannel` -/
  | remove (c : Nat)

def step (s : State τ) : Action τ → Option (State τ)
  | .create fd isSocket =>
    some { s.setChannel s.next (.create fd isSocket) with next := s.next + 1 }
  | .addEvent c event task =>
    (s.channels c).map fun i => s.setChannel c (addEventOf i event task)
  | .cancelEvent c event => (s.channels c).map fun i => s.setChannel c (i.cancelEvent event)
  | .clearEvent c => (s.channels c).map fun i => s.setChannel c i.clearEvent
  | .updateChannel c =>
    (s.channels c).bind fun i => if s.Presentable c i then some (s.updateChannel c i) else none
  | .remove c => (s.channels c).map fun i => s.remove c i

/-- A new poller. -/
def initial : State τ where
  m_channel_map := fun _ => none
  epoll := fun _ => none
  channels := fun _ => none
  next := 0
  registered := fun _ => false
  removed := fun _ => false
  updated := fun _ _ => false
  failed := false
  illegal := false

def system (τ : Type*) : LTS (State τ) (Action τ) where
  init := fun s => s = initial
  step := step

/-! ### The books agree -/

/-- **What the books promise.** -/
structure Bookkept (s : State τ) : Prop where
  failed : s.failed = false
  illegal : s.illegal = false
  new : ∀ c i, s.channels c = some i → (i.m_state = .NEW ↔ s.m_channel_map i.m_fd ≠ some c)
  exist : ∀ c i, s.channels c = some i → (i.m_state = .EXIST ↔
    s.m_channel_map i.m_fd = some c ∧ s.epoll i.m_fd = some ⟨s.updated c, c⟩)
  discard : ∀ c i, s.channels c = some i → (i.m_state = .DISCARD ↔
    s.m_channel_map i.m_fd = some c ∧ s.epoll i.m_fd = none)

/-- What the state of a channel says about the other two places. -/
def StateOk (m : ChannelMap) (epoll : EpollSet) (updated : IoEvent → Bool) (c : Nat)
    (i : FdInfo τ) : Prop :=
  match i.m_state with
  | .NEW => m i.m_fd ≠ some c
  | .EXIST => m i.m_fd = some c ∧ epoll i.m_fd = some ⟨updated, c⟩
  | .DISCARD => m i.m_fd = some c ∧ epoll i.m_fd = none

structure Inv (s : State τ) : Prop where
  failed : s.failed = false
  illegal : s.illegal = false
  next : ∀ c, s.next ≤ c → s.channels c = none ∧ s.registered c = false
  /-- the map has the channels that are registered and not removed -/
  map : ∀ fd c, s.m_channel_map fd = some c ↔
    s.registered c = true ∧ s.removed c = false ∧ (s.channels c).map FdInfo.m_fd = some fd
  state : ∀ c i, s.channels c = some i → StateOk s.m_channel_map s.epoll (s.updated c) c i
  /-- the kernel polls no descriptor that is not in the map -/
  epoll : ∀ fd, s.m_channel_map fd = none → s.epoll fd = none

theorem Inv.bookkept {s : State τ} (h : Inv s) : Bookkept s := by
  refine ⟨h.failed, h.illegal, fun c i hi => ?_, fun c i hi => ?_, fun c i hi => ?_⟩ <;>
    have hok := h.state c i hi <;> unfold StateOk at hok <;>
    cases hs : i.m_state <;> rw [hs] at hok <;> simp_all

/-! ### What a call changes -/

/-- `addEvent` changes the events, and who is to be woken. -/
theorem addEventOf_spec (i : FdInfo τ) (event : IoEvent) (task : Option τ) :
    (addEventOf i event task).m_fd = i.m_fd ∧ (addEventOf i event task).m_state = i.m_state := by
  unfold addEventOf
  split
  · exact ⟨FdInfo.addEvent_fd, FdInfo.addEvent_state⟩
  · split <;> exact ⟨rfl, rfl⟩

section Calls

variable {s s' : State τ} {c : Nat} {i i' : FdInfo τ}

/-- A channel is the one of its descriptor, or it is new. -/
theorem Inv.new_of_ne (h : Inv s) (hi : s.channels c = some i)
    (hne : s.m_channel_map i.m_fd ≠ some c) : i.m_state = .NEW := by
  have hok := h.state c i hi
  unfold StateOk at hok
  cases hs : i.m_state with
  | NEW => rfl
  | EXIST => rw [hs] at hok; exact absurd hok.1 hne
  | DISCARD => rw [hs] at hok; exact absurd hok.1 hne

theorem stateOk_new {m : ChannelMap} {epoll : EpollSet} {updated : IoEvent → Bool}
    (hs : i.m_state = .NEW) (hm : m i.m_fd ≠ some c) : StateOk m epoll updated c i := by
  unfold StateOk
  rw [hs]
  exact hm

/-- **A call changes one descriptor.** What the map and the kernel have at the descriptor of the
    channel is replaced, and it was nobody else's. -/
theorem Inv.ofChange (h : Inv s) (hi : s.channels c = some i) (i' : FdInfo τ) {r : Option Nat}
    {e : Option EpollEvent} (hfd : i'.m_fd = i.m_fd)
    (hfailed : s'.failed = s.failed) (hillegal : s'.illegal = s.illegal) (hnext : s'.next = s.next)
    (hchannels : s'.channels = Function.update s.channels c (some i'))
    (hmap : s'.m_channel_map = Function.update s.m_channel_map i.m_fd r)
    (hepoll : s'.epoll = Function.update s.epoll i.m_fd e)
    (hregistered : ∀ c', c' ≠ c → s'.registered c' = s.registered c')
    (hremoved : ∀ c', c' ≠ c → s'.removed c' = s.removed c')
    (hupdated : ∀ c', c' ≠ c → s'.updated c' = s.updated c')
    (hcur : ∀ c', s.m_channel_map i.m_fd = some c' → c' = c) (hr : ∀ c', r = some c' → c' = c)
    (hreg : r = some c ↔ s'.registered c = true ∧ s'.removed c = false)
    (hstate : StateOk s'.m_channel_map s'.epoll (s'.updated c) c i')
    (hnone : r = none → e = none) : Inv s' := by
  -- no channel changes its descriptor
  have hold : ∀ c', (s'.channels c').map FdInfo.m_fd = (s.channels c').map FdInfo.m_fd := by
    intro c'
    rw [hchannels]
    by_cases hc : c' = c
    · rw [hc, Function.update_self, hi, Option.map_some, Option.map_some, hfd]
    · rw [Function.update_of_ne hc]
  refine ⟨hfailed.trans h.failed, hillegal.trans h.illegal, fun c' hc' => ?_, fun fd c' => ?_,
    fun c' j hj => ?_, fun fd hm => ?_⟩
  · -- a channel that has not been created yet is not `c`
    rw [hnext] at hc'
    have hne : c' ≠ c := by
      rintro rfl
      exact absurd ((h.next c' hc').1.symm.trans hi) (by simp)
    rw [hchannels, Function.update_of_ne hne, hregistered c' hne]
    exact h.next c' hc'
  · rw [hold, hmap]
    by_cases hf : fd = i.m_fd
    · -- at this descriptor there is no channel but `c`
      rw [hf, Function.update_self]
      by_cases hc : c' = c
      · rw [hc, hi, Option.map_some, hreg]
        simp
      · rw [hregistered c' hc, hremoved c' hc, ← h.map]
        exact iff_of_false (fun h' => hc (hr c' h')) fun h' => hc (hcur c' h')
    · rw [Function.update_of_ne hf]
      by_cases hc : c' = c
      · rw [hc, h.map, hi, Option.map_some]
        have hne : some i.m_fd ≠ some fd := fun h' => hf (Option.some.inj h').symm
        exact iff_of_false (fun h' => hne h'.2.2) fun h' => hne h'.2.2
      · rw [hregistered c' hc, hremoved c' hc]
        exact h.map fd c'
  · rw [hchannels] at hj
    by_cases hc : c' = c
    · rw [hc, Function.update_self] at hj
      rw [hc, ← Option.some.inj hj]
      exact hstate
    · rw [Function.update_of_ne hc] at hj
      by_cases hf : j.m_fd = i.m_fd
      · -- another channel of the same descriptor is in no place, before and after
        refine stateOk_new (h.new_of_ne hj ?_) ?_
        · rw [hf]
          exact fun h' => hc (hcur c' h')
        · rw [hmap, hf, Function.update_self]
          exact fun h' => hc (hr c' h')
      · have hok := h.state c' j hj
        unfold StateOk at hok ⊢
        rw [hmap, hepoll, Function.update_of_ne hf, Function.update_of_ne hf, hupdated c' hc]
        exact hok
  · rw [hmap] at hm
    rw [hepoll]
    by_cases hf : fd = i.m_fd
    · rw [hf, Function.update_self] at hm
      rw [hf, Function.update_self, hnone hm]
    · rw [Function.update_of_ne hf] at hm
      rw [Function.update_of_ne hf]
      exact h.epoll fd hm

/-- The events of a channel change, in the channel only. -/
theorem Inv.setChannel (h : Inv s) (hi : s.channels c = some i) (hfd : i'.m_fd = i.m_fd)
    (hst : i'.m_state = i.m_state) : Inv (s.setChannel c i') := by
  have hold : ∀ c', ((s.setChannel c i').channels c').map FdInfo.m_fd =
      (s.channels c').map FdInfo.m_fd := by
    intro c'
    show (Function.update s.channels c (some i') c').map FdInfo.m_fd = _
    by_cases hc : c' = c
    · rw [hc, Function.update_self, hi, Option.map_some, Option.map_some, hfd]
    · rw [Function.update_of_ne hc]
  refine ⟨h.failed, h.illegal, fun c' hc' => ?_, fun fd c' => ?_, fun c' j hj => ?_, h.epoll⟩
  · have hne : c' ≠ c := by
      rintro rfl
      exact absurd ((h.next c' hc').1.symm.trans hi) (by simp)
    exact ⟨(Function.update_of_ne hne _ _).trans (h.next c' hc').1, (h.next c' hc').2⟩
  · rw [hold]
    exact h.map fd c'
  · have hj : Function.update s.channels c (some i') c' = some j := hj
    by_cases hc : c' = c
    · rw [hc, Function.update_self] at hj
      have hok := h.state c i hi
      rw [hc, ← Option.some.inj hj]
      unfold StateOk at hok ⊢
      rw [hfd, hst]
      exact hok
    · rw [Function.update_of_ne hc] at hj
      exact h.state c' j hj

/-- A new channel. -/
theorem Inv.create (h : Inv s) (hfd : i.m_state = .NEW) :
    Inv { s.setChannel s.next i with next := s.next + 1 } := by
  obtain ⟨hnone, hreg⟩ := h.next s.next (Nat.le_refl _)
  have hnot : ∀ fd, s.m_channel_map fd ≠ some s.next := fun fd hm => by
    rw [h.map, hreg] at hm
    exact absurd hm.1 (by simp)
  refine ⟨h.failed, h.illegal, fun c hc => ?_, fun fd c => ?_, fun c j hj => ?_, h.epoll⟩
  · have hc : s.next + 1 ≤ c := hc
    have hold := h.next c (by omega)
    exact ⟨(Function.update_of_ne (by omega) _ _).trans hold.1, hold.2⟩
  · show s.m_channel_map fd = some c ↔ s.registered c = true ∧ s.removed c = false ∧
      (Function.update s.channels s.next (some i) c).map FdInfo.m_fd = some fd
    by_cases hc : c = s.next
    · rw [hc, hreg]
      exact iff_of_false (hnot fd) fun h' => absurd h'.1 (by simp)
    · rw [Function.update_of_ne hc]
      exact h.map fd c
  · have hj : Function.update s.channels s.next (some i) c = some j := hj
    by_cases hc : c = s.next
    · rw [hc, Function.update_self] at hj
      rw [hc, ← Option.some.inj hj]
      exact stateOk_new hfd (hnot _)
    · rw [Function.update_of_ne hc] at hj
      exact h.state c j hj

/-- A channel that may be presented and is new has its descriptor for itself. -/
theorem Inv.map_none (h : Inv s) (hi : s.channels c = some i) (hp : s.Presentable c i)
    (hs : i.m_state = .NEW) : s.m_channel_map i.m_fd = none := by
  by_contra hm
  obtain ⟨c', hc'⟩ := Option.ne_none_iff_exists'.mp hm
  obtain ⟨hreg', hrem', hfd'⟩ := (h.map _ _).mp hc'
  rcases hp.2 with hreg | hothers
  · -- it is in the map itself, so it is not new
    have hok := h.state c i hi
    unfold StateOk at hok
    rw [hs] at hok
    exact hok ((h.map _ _).mpr ⟨hreg, hp.1, by rw [hi, Option.map_some]⟩)
  · -- a channel in the map has been registered and not removed, which the caller excludes
    have hlt : c' < s.next := by
      by_contra hle
      rw [(h.next c' (Nat.le_of_not_lt hle)).1] at hfd'
      exact absurd hfd' (by simp)
    rw [hothers c' hlt hfd' hreg'] at hrem'
    exact absurd hrem' (by simp)

/-- **`updateChannel`** of a channel that may be presented. -/
theorem Inv.updateChannel (h : Inv s) (hi : s.channels c = some i) (hp : s.Presentable c i) :
    Inv (s.updateChannel c i) := by
  have hok := h.state c i hi
  unfold StateOk at hok
  have hregistered : ∀ c', c' ≠ c → Function.update s.registered c true c' = s.registered c' :=
    fun c' hc => Function.update_of_ne hc _ _
  have hupdated : ∀ c', c' ≠ c → Function.update s.updated c i.m_events c' = s.updated c' :=
    fun c' hc => Function.update_of_ne hc _ _
  have hreg : some c = some c ↔ Function.update s.registered c true c = true ∧
      s.removed c = false := iff_of_true rfl ⟨Function.update_self _ _ _, hp.1⟩
  have hself : ∀ c', some c = some c' → c' = c := fun c' h' => (Option.some.inj h').symm
  -- what the kernel has afterwards are the events of this call
  have hevent : Function.update s.epoll i.m_fd (some ⟨i.m_events, c⟩) i.m_fd =
      some ⟨Function.update s.updated c i.m_events c, c⟩ := by
    rw [Function.update_self, Function.update_self]
  cases hs : i.m_state with
  | NEW =>
    -- `EPOLL_CTL_ADD` of a descriptor that is not in the map, and so not in the kernel
    have hm := h.map_none hi hp hs
    have he := h.epoll _ hm
    have hu : s.updateChannel c i = { s with
        m_channel_map := Function.update s.m_channel_map i.m_fd (some c)
        epoll := Function.update s.epoll i.m_fd (some ⟨i.m_events, c⟩)
        channels := Function.update s.channels c (some { i with m_state := .EXIST })
        registered := Function.update s.registered c true
        updated := Function.update s.updated c i.m_events } := by
      simp only [State.updateChannel, EpollPoller.updateChannel, hs, hm, if_true, State.update,
        updateOp, epoll_ctl, he, State.setChannel]
    rw [hu]
    refine h.ofChange hi { i with m_state := .EXIST } rfl rfl rfl rfl rfl rfl rfl hregistered
      (fun _ _ => rfl) hupdated (fun c' h' => absurd (hm.symm.trans h') (by simp)) hself hreg ?_
      (by simp)
    exact ⟨Function.update_self _ _ _, hevent⟩
  | DISCARD =>
    -- `EPOLL_CTL_ADD` once more; the map has it already
    rw [hs] at hok
    obtain ⟨hm, he⟩ := hok
    have hu : s.updateChannel c i = { s with
        epoll := Function.update s.epoll i.m_fd (some ⟨i.m_events, c⟩)
        channels := Function.update s.channels c (some { i with m_state := .EXIST })
        registered := Function.update s.registered c true
        updated := Function.update s.updated c i.m_events } := by
      simp only [State.updateChannel, EpollPoller.updateChannel, hs, hm, if_true, State.update,
        updateOp, epoll_ctl, he, State.setChannel]
    rw [hu]
    refine h.ofChange hi { i with m_state := .EXIST } (r := some c) rfl rfl rfl rfl rfl ?_ rfl
      hregistered (fun _ _ => rfl)
      hupdated (fun c' h' => hself c' (hm.symm.trans h')) hself hreg ?_ (by simp)
    · rw [← hm, Function.update_eq_self]
    · exact ⟨hm, hevent⟩
  | EXIST =>
    rw [hs] at hok
    obtain ⟨hm, he⟩ := hok
    by_cases hn : i.isNoneEvent = true
    · -- `EPOLL_CTL_DEL`
      have hu : s.updateChannel c i = { s with
          epoll := Function.update s.epoll i.m_fd none
          channels := Function.update s.channels c (some { i with m_state := .DISCARD })
          registered := Function.update s.registered c true
          updated := Function.update s.updated c i.m_events } := by
        simp [State.updateChannel, EpollPoller.updateChannel, hs, hm, State.update, updateOp,
          epoll_ctl, he, State.setChannel, hn]
      rw [hu]
      refine h.ofChange hi { i with m_state := .DISCARD } (r := some c) rfl rfl rfl rfl rfl ?_ rfl
        hregistered (fun _ _ => rfl)
        hupdated (fun c' h' => hself c' (hm.symm.trans h')) hself hreg ?_ (by simp)
      · rw [← hm, Function.update_eq_self]
      · exact ⟨hm, Function.update_self _ _ _⟩
    · -- `EPOLL_CTL_MOD`
      have hu : s.updateChannel c i = { s with
          epoll := Function.update s.epoll i.m_fd (some ⟨i.m_events, c⟩)
          channels := Function.update s.channels c (some i)
          registered := Function.update s.registered c true
          updated := Function.update s.updated c i.m_events } := by
        simp [State.updateChannel, EpollPoller.updateChannel, hs, hm, State.update, updateOp,
          epoll_ctl, he, State.setChannel, hn]
      rw [hu]
      refine h.ofChange hi i (r := some c) rfl rfl rfl rfl rfl ?_ rfl hregistered (fun _ _ => rfl)
        hupdated (fun c' h' => hself c' (hm.symm.trans h')) hself hreg ?_ (by simp)
      · rw [← hm, Function.update_eq_self]
      · unfold StateOk
        rw [hs]
        exact ⟨hm, hevent⟩

/-- **`removeChannel`** of a channel of the map that has no events. -/
theorem Inv.removeChannel (h : Inv s) (hi : s.channels c = some i) (hn : i.isNoneEvent = true)
    (hm : s.m_channel_map i.m_fd = some c) : Inv (s.removeChannel c i) := by
  have hok := h.state c i hi
  unfold StateOk at hok
  have hst : i.m_state ≠ .NEW := by
    intro hs
    rw [hs] at hok
    exact hok hm
  have hu : s.removeChannel c i = { s with
      m_channel_map := Function.update s.m_channel_map i.m_fd none
      epoll := Function.update s.epoll i.m_fd none
      channels := Function.update s.channels c (some { i with m_state := .NEW })
      removed := Function.update s.removed c true } := by
    cases hs : i.m_state with
    | NEW => exact absurd hs hst
    | EXIST =>
      rw [hs] at hok
      simp [State.removeChannel, EpollPoller.removeChannel, hm, hn, hs, State.update, epoll_ctl,
        hok.2, State.setChannel]
    | DISCARD =>
      -- no `epoll_ctl`, and the kernel has nothing to forget
      rw [hs] at hok
      have he : Function.update s.epoll i.m_fd none = s.epoll := by
        rw [← hok.2, Function.update_eq_self]
      simp [State.removeChannel, EpollPoller.removeChannel, hm, hn, hs, State.setChannel, he]
  rw [hu]
  refine h.ofChange hi { i with m_state := .NEW } (r := none) (e := none) rfl rfl rfl rfl
    rfl rfl rfl (fun _ _ => rfl)
    (fun c' hc => Function.update_of_ne hc _ _) (fun _ _ => rfl)
    (fun c' h' => (Option.some.inj (hm.symm.trans h')).symm) (by simp) ?_ ?_ fun _ => rfl
  · apply iff_of_false (by simp)
    intro h'
    have h' : Function.update s.removed c true c = false := h'.2
    rw [Function.update_self] at h'
    exact absurd h' (by simp)
  · apply stateOk_new rfl
    show Function.update s.m_channel_map i.m_fd none i.m_fd ≠ some c
    rw [Function.update_self]
    simp

/-- **Removal**, as the hooked `close` does it. -/
theorem Inv.remove (h : Inv s) (hi : s.channels c = some i) : Inv (s.remove c i) := by
  have hinv : Inv (s.setChannel c i.clearEvent) :=
    h.setChannel hi FdInfo.clearEvent_fd FdInfo.clearEvent_state
  unfold State.remove
  dsimp only
  split
  · rename_i hhas
    apply hinv.removeChannel (Function.update_self _ _ _) FdInfo.clearEvent_isNoneEvent
    exact of_decide_eq_true hhas
  · exact hinv

end Calls

/-! ### Every sequence of calls -/

section Runs

variable {s s' : State τ}

theorem inv_initial : Inv (initial : State τ) where
  failed := rfl
  illegal := rfl
  next := fun _ _ => ⟨rfl, rfl⟩
  map := fun _ _ => iff_of_false (by rintro ⟨⟩) fun h => absurd h.1 (by rintro ⟨⟩)
  state := nofun
  epoll := fun _ _ => rfl

/-- **Step lemma.** -/
theorem inv_step {a : Action τ} (h : Inv s) (hs : step s a = some s') : Inv s' := by
  cases a with
  | create fd isSocket =>
    obtain rfl := Option.some.inj hs
    exact h.create rfl
  | addEvent c event task =>
    obtain ⟨i, hi, rfl⟩ := Option.map_eq_some_iff.mp hs
    obtain ⟨hfd, hst⟩ := addEventOf_spec i event task
    exact h.setChannel hi hfd hst
  | cancelEvent c event =>
    obtain ⟨i, hi, rfl⟩ := Option.map_eq_some_iff.mp hs
    exact h.setChannel hi FdInfo.cancelEvent_fd FdInfo.cancelEvent_state
  | clearEvent c =>
    obtain ⟨i, hi, rfl⟩ := Option.map_eq_some_iff.mp hs
    exact h.setChannel hi FdInfo.clearEvent_fd FdInfo.clearEvent_state
  | updateChannel c =>
    obtain ⟨i, hi, hs⟩ := Option.bind_eq_some_iff.mp hs
    split at hs
    · rename_i hp
      obtain rfl := Option.some.inj hs
      exact h.updateChannel hi hp
    · exact absurd hs (by simp)
  | remove c =>
    obtain ⟨i, hi, rfl⟩ := Option.map_eq_some_iff.mp hs
    exact h.remove hi

/-- **The books of the poller.** After every sequence of calls the state of each channel, the map
    and the kernel set agree, no assertion has failed, and no `epoll_ctl` was illegal. -/
theorem reachable_bookkept (h : (system τ).Reachable s) : Bookkept s :=
  (h.invariant (I := Inv) (fun _ h0 => h0 ▸ inv_initial) fun _ _ _ hI _ hs =>
    inv_step hI hs).bookkept

/-- A descriptor is polled, paused, polled again and closed, and then used by a new channel. -/
def reused : List (Action Unit) :=
  [.create 5 true, .addEvent 0 .READ (some ()), .updateChannel 0, .cancelEvent 0 .READ,
    .updateChannel 0, .addEvent 0 .WRITE (some ()), .updateChannel 0, .remove 0, .create 5 true,
    .addEvent 1 .READ none, .updateChannel 1]

theorem reachable_bookkept_reused : ∃ s : State Unit, (system Unit).exec initial reused = some s ∧
    s.m_channel_map 5 = some 1 ∧ Bookkept s := by
  obtain ⟨s, hs, hm⟩ : ∃ s : State Unit, (system Unit).exec initial reused = some s ∧
      s.m_channel_map 5 = some 1 := ⟨_, rfl, rfl⟩
  exact ⟨s, hs, hm, reachable_bookkept (LTS.reachable_of_exec rfl hs)⟩

end Runs

end LimWebserver.EpollPoller
