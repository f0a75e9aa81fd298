import LimWebserver.Coroutine.Hook

namespace LimWebserver.Hook

open LimWebserver.Lib

/-!
# Coroutine — under `Woken` every waiting task can be woken

* `Frame` — what holds for one task at each program point of its call, and `Inv`, which says it of
  all tasks;
* `Keeps` — the steps on channels that leave a call its event, one lemma for each operation;
* `Inv.task`, `Inv.world` — a step of one task, and a step that moves no task;
* `inv_step` — one case for each action; `woken_awake` — every run.
-/

variable {τ ℓ : Type*} {loopOf : τ → ℓ}

/-! ### The invariant -/

/-- The timer that the frame of a task has in `timer`. -/
def TaskPc.owned : TaskPc → Option Nat
  | .call _ (.addEvent timer) => timer
  | .call _ (.updateChannel timer) => timer
  | .call _ (.coHold timer) => timer
  | .call _ (.held timer) => timer
  | .call _ (.cancel timer) => timer
  | .call _ (.expired timer) => timer
  | _ => none

/-- What wakes a task at a program point of its call. -/
def Ready (loopOf : τ → ℓ) (s : State τ ℓ) (t : τ) (c : Call) : CallPc → Prop
  -- a timer that is still to run is enough, because its step is what `Woken` restricts
  | .addEvent (some x) => (s.timer x).pc.pending = true ∨ s.Queued loopOf t
  | .updateChannel none =>
    (s.fdInfo c.fdInfo).m_events c.event = true ∨ s.Queued loopOf t
  | .updateChannel (some x) => (s.timer x).pc.pending = true ∨ s.Queued loopOf t
  | .coHold none => s.Listens (loopOf t) c ∨ s.Queued loopOf t
  | .coHold (some x) => (s.timer x).pc.pending = true ∨ s.Queued loopOf t
  | .held none => s.Listens (loopOf t) c ∨ s.Queued loopOf t
  | .held (some x) => (s.timer x).pc.pending = true ∨ s.Queued loopOf t
  | _ => True

/-- A task in a hooked call. -/
structure Frame (loopOf : τ → ℓ) (s : State τ ℓ) (t : τ) (c : Call) (p : CallPc) : Prop where
  fdInfo : c.fdInfo < s.nextFdInfo
  ready : Ready loopOf s t c p

/-- **The invariant.** -/
structure Inv (loopOf : τ → ℓ) (s : State τ ℓ) : Prop where
  frame : ∀ t c p, s.pc t = .call c p → Frame loopOf s t c p
  /-- Every timer belongs to one frame. -/
  owned : ∀ t x, (s.pc t).owned = some x → x < s.nextTimer
  distinct : ∀ t t' x, (s.pc t).owned = some x → (s.pc t').owned = some x → t = t'
  fds : ∀ fd i, s.fds fd = some i → i < s.nextFdInfo
  expired : ∀ x, (s.timer x).pc = .finished → (s.timer x).expired = true

theorem inv_initial (loop : ℓ) : Inv loopOf (initial τ loop) where
  frame := nofun
  owned := nofun
  distinct := nofun
  fds := nofun
  expired := nofun

/-! ### Steps on channels -/

/-- A step that leaves a call its event and its poller. -/
def Keeps (s s' : State τ ℓ) (c : Call) : Prop :=
  ((s.fdInfo c.fdInfo).m_events c.event = true →
    (s'.fdInfo c.fdInfo).m_events c.event = true) ∧
  ∀ loop, s.Listens loop c → s'.Listens loop c

section
variable {s s' : State τ ℓ} {c : Call} {loop : ℓ} {i : Nat} {info : FdInfo τ}

theorem keeps_of_map (hi : s'.fdInfo c.fdInfo = s.fdInfo c.fdInfo)
    (hm : ∀ loop fd, s.m_channel_map loop fd = some c.fdInfo →
      s'.m_channel_map loop fd = some c.fdInfo) : Keeps s s' c := by
  rw [Keeps, hi]
  refine ⟨id, fun loop h => ?_⟩
  obtain ⟨h1, h2, h3⟩ := h
  rw [State.Listens, hi]
  exact ⟨h1, h2, hm _ _ h3⟩

theorem keeps_of_eq (hi : s'.fdInfo c.fdInfo = s.fdInfo c.fdInfo)
    (hm : s'.m_channel_map = s.m_channel_map) : Keeps s s' c :=
  keeps_of_map hi fun _ _ h => hm ▸ h

theorem keeps_setFdInfo (hfd : info.m_fd = (s.fdInfo i).m_fd)
    (hstate : info.m_state = (s.fdInfo i).m_state)
    (hev : c.fdInfo = i → (s.fdInfo i).m_events c.event = true → info.m_events c.event = true) :
    Keeps s (s.setFdInfo i info) c := by
  rcases eq_or_ne c.fdInfo i with hc | hc
  · -- the channel of the call itself
    have hself : (s.setFdInfo i info).fdInfo c.fdInfo = info := by
      rw [hc]; exact Function.update_self _ _ _
    rw [Keeps, hself, hc]
    refine ⟨hev hc, fun loop ⟨h1, h2, h3⟩ => ?_⟩
    rw [State.Listens, hself]
    rw [hc] at h1 h2 h3
    exact ⟨hev hc h1, hstate.trans h2, by rw [hc, hfd]; exact h3⟩
  · exact keeps_of_eq (Function.update_of_ne hc _ _) rfl

variable [DecidableEq ℓ]

/-- What `updateChannel` and `removeChannel` change. -/
theorem updateChannel_eq (h : s.updateChannel loop i = some s') :
    ∃ info m, s' = { s with fdInfo := info, m_channel_map := m } := by
  obtain ⟨⟨m, info⟩, -, rfl⟩ := Option.map_eq_some_iff.mp h
  exact ⟨_, _, rfl⟩

theorem removeChannel_eq (h : s.removeChannel loop i = some s') :
    ∃ info m, s' = { s with fdInfo := info, m_channel_map := m } := by
  unfold State.removeChannel at h
  split at h
  · obtain ⟨⟨m, info⟩, -, rfl⟩ := Option.map_eq_some_iff.mp h
    exact ⟨_, _, rfl⟩
  · cases h
    exact ⟨_, _, rfl⟩

theorem keeps_updateChannel (h : s.updateChannel loop i = some s') : Keeps s s' c := by
  obtain ⟨⟨m, info⟩, hu, rfl⟩ := Option.map_eq_some_iff.mp h
  obtain ⟨hfd, hev⟩ := EpollPoller.updateChannel_info hu
  have hmap : ∀ loop' fd, s.m_channel_map loop' fd = some c.fdInfo →
      Function.update s.m_channel_map loop m loop' fd = some c.fdInfo := fun loop' fd hm => by
    rcases eq_or_ne loop' loop with rfl | hl
    · rw [Function.update_self]
      exact EpollPoller.updateChannel_map hu hm
    · rwa [Function.update_of_ne hl]
  rcases eq_or_ne c.fdInfo i with hc | hc
  · -- a channel with an event stays `EXIST`
    have hself : Function.update s.fdInfo i info c.fdInfo = info := by
      rw [hc, Function.update_self]
    refine ⟨fun h1 => ?_, fun loop' ⟨h1, h2, h3⟩ => ?_⟩
    · show (Function.update s.fdInfo i info c.fdInfo).m_events c.event = true
      rw [hself, hev, ← hc]
      exact h1
    · rw [hc] at h1
      show _ ∧ _ ∧ _
      dsimp only [State.setFdInfo]
      rw [hself, hev]
      refine ⟨h1, (EpollPoller.updateChannel_exist hu h1).1, ?_⟩
      rw [hfd, ← hc]
      exact hmap loop' _ h3
  · exact keeps_of_map (Function.update_of_ne hc _ _) hmap

/-- A channel that has an event is not removed. -/
theorem keeps_removeChannel (h : s.removeChannel loop i = some s') : Keeps s s' c := by
  unfold State.removeChannel at h
  split at h
  · obtain ⟨⟨m, info⟩, hu, rfl⟩ := Option.map_eq_some_iff.mp h
    obtain ⟨hnone, hfd, hev, hmap⟩ := EpollPoller.removeChannel_spec hu
    rcases eq_or_ne c.fdInfo i with hc | hc
    · -- `ASSERT(channel->isNoneEvent())`
      have hno : (s.fdInfo c.fdInfo).m_events c.event = true → False := fun h1 => by
        rw [hc] at h1
        rw [FdInfo.isNoneEvent_eq_false h1] at hnone
        cases hnone
      exact ⟨fun h1 => (hno h1).elim, fun loop' h1 => (hno h1.1).elim⟩
    · apply keeps_of_map (Function.update_of_ne hc _ _)
      intro loop' fd hm
      show Function.update s.m_channel_map loop m loop' fd = some c.fdInfo
      rcases eq_or_ne loop' loop with rfl | hl
      · rw [Function.update_self]
        exact hmap _ _ hm hc
      · rwa [Function.update_of_ne hl]
  · cases h
    exact ⟨id, fun _ => id⟩

/-- After `updateChannel` the poller listens for an event of the channel. -/
theorem listens_updateChannel (h : s.updateChannel loop c.fdInfo = some s')
    (hev : (s.fdInfo c.fdInfo).m_events c.event = true) : s'.Listens loop c := by
  obtain ⟨⟨m, info⟩, hu, rfl⟩ := Option.map_eq_some_iff.mp h
  obtain ⟨hfd, hev'⟩ := EpollPoller.updateChannel_info hu
  obtain ⟨hstate, hm⟩ := EpollPoller.updateChannel_exist hu hev
  show _ ∧ _ ∧ _
  dsimp only [State.setFdInfo]
  rw [Function.update_self, Function.update_self, hev', hfd]
  exact ⟨hev, hstate, hm⟩

end

/-- `wake` only adds to the queues. -/
theorem wake_eq [DecidableEq ℓ] (loopOf : τ → ℓ) (s : State τ ℓ) (o : Option τ) :
    ∃ q, s.wake loopOf o = { s with queue := q } ∧ ∀ loop t, t ∈ s.queue loop → t ∈ q loop := by
  cases o with
  | none => exact ⟨s.queue, rfl, fun _ _ => id⟩
  | some u =>
    refine ⟨_, rfl, fun loop t ht => ?_⟩
    rcases eq_or_ne loop (loopOf u) with rfl | hne
    · rw [Function.update_self]
      exact List.mem_append_left _ ht
    · rwa [Function.update_of_ne hne]

/-- The entry of a descriptor is replaced, and whoever the old channel triggers is woken. -/
theorem setFd_eq [DecidableEq ℓ] (loopOf : τ → ℓ) (s : State τ ℓ) (fd : Nat) (info : Option Nat) :
    ∃ q, s.setFd loopOf fd info = { s with fds := Function.update s.fds fd info, queue := q } ∧
      ∀ loop t, t ∈ s.queue loop → t ∈ q loop :=
  wake_eq loopOf { s with fds := Function.update s.fds fd info } _

/-- What `create` does. -/
theorem create_eq [DecidableEq τ] [DecidableEq ℓ] {loopOf : τ → ℓ} {s s' : State τ ℓ} {fd : Nat}
    {isSocket : Bool} (hs : step loopOf s (.create fd isSocket) = some s') :
    ∃ q, s' = { s with
        fdInfo := Function.update s.fdInfo s.nextFdInfo (.create fd isSocket)
        nextFdInfo := s.nextFdInfo + 1
        fds := Function.update s.fds fd (some s.nextFdInfo)
        queue := q } ∧
      ∀ loop t, t ∈ s.queue loop → t ∈ q loop := by
  obtain ⟨q, hq, hmem⟩ := setFd_eq loopOf { s with
    fdInfo := Function.update s.fdInfo s.nextFdInfo (.create fd isSocket)
    nextFdInfo := s.nextFdInfo + 1 } fd (some s.nextFdInfo)
  rw [step, hq, Option.some.injEq] at hs
  exact ⟨q, hs.symm, hmem⟩

/-- What `del` does before `close` returns. -/
theorem del_eq [DecidableEq τ] [DecidableEq ℓ] {loopOf : τ → ℓ} {s s' : State τ ℓ} {t : τ}
    {fd i : Nat} {r : SysResult} (hs : closeStep loopOf s t fd i r .del = some s') :
    ∃ q, s' = State.ret { s with fds := Function.update s.fds fd none, queue := q } t r ∧
      ∀ loop t, t ∈ s.queue loop → t ∈ q loop := by
  obtain ⟨q, hq, hmem⟩ := setFd_eq loopOf s fd none
  rw [closeStep, hq, Option.some.injEq] at hs
  exact ⟨q, hs.symm, hmem⟩

/-- **What a step does**, whatever its action has checked before. -/
inductive Effect [DecidableEq τ] [DecidableEq ℓ] (loopOf : τ → ℓ) (s : State τ ℓ) :
    Action τ ℓ → State τ ℓ → Prop
  | same {a : Action τ ℓ} : Effect loopOf s a s
  | ret (t : τ) (fd : Nat) : Effect loopOf s (.connect t fd) (s.ret t .EBADF)
  | call {a : Action τ ℓ} {fd i : Nat} (t : τ) (h : HookFun) (hfd : s.fds fd = some i) :
    Effect loopOf s a (s.goto t (.call ⟨h, i⟩ .fun_))
  | close {fd i : Nat} (t : τ) (hfd : s.fds fd = some i) :
    Effect loopOf s (.close t fd) (s.goto t (.close fd i .clearEvent))
  | callStep {t : τ} {c : Call} {p : CallPc} {r : SysResult} {s' : State τ ℓ}
    (hpc : s.pc t = .call c p) (hs : callStep loopOf s t c r p = some s') :
    Effect loopOf s (.run t r) s'
  | closeStep {t : τ} {fd i : Nat} {p : ClosePc} {r : SysResult} {s' : State τ ℓ}
    (hpc : s.pc t = .close fd i p) (hs : closeStep loopOf s t fd i r p = some s') :
    Effect loopOf s (.run t r) s'
  | create {fd : Nat} {isSocket : Bool} {s' : State τ ℓ}
    (hs : step loopOf s (.create fd isSocket) = some s') :
    Effect loopOf s (.create fd isSocket) s'
  | option {a : Action τ ℓ} {i : Nat} {info : FdInfo τ} (hfd : info.m_fd = (s.fdInfo i).m_fd)
    (hstate : info.m_state = (s.fdInfo i).m_state)
    (hev : info.m_events = (s.fdInfo i).m_events) : Effect loopOf s a (s.setFdInfo i info)
  | yield (t : τ) : Effect loopOf s (.yield t) (State.wake loopOf { s.goto t .ready with
      m_curTask := Function.update s.m_curTask (loopOf t) none } (some t))
  | hold (t : τ) : Effect loopOf s (.hold t) { s.goto t .hold with
      m_curTask := Function.update s.m_curTask (loopOf t) none }
  | term (t : τ) : Effect loopOf s (.term t) { s.goto t .term with
      m_curTask := Function.update s.m_curTask (loopOf t) none }
  | wake {a : Action τ ℓ} (o : Option τ) : Effect loopOf s a (s.wake loopOf o)
  | expire {x : Nat} (hpc : (s.timer x).pc = .armed) :
    Effect loopOf s (.expire x) (s.setTimer x { s.timer x with pc := .cancelEvent })
  | callback {x : Nat} {s' : State τ ℓ} (hs : callbackStep s x (s.timer x).pc = some s') :
    Effect loopOf s (.callback x) s'
  | swapIn {t : τ} {s' : State τ ℓ} (hs : step loopOf s (.swapIn t) = some s') :
    Effect loopOf s (.swapIn t) s'

theorem step_effect [DecidableEq τ] [DecidableEq ℓ] {loopOf : τ → ℓ} {s s' : State τ ℓ}
    {a : Action τ ℓ} (hs : step loopOf s a = some s') : Effect loopOf s a s' := by
  cases a with
  | io t f fd =>
    simp only [step, Option.ite_none_right_eq_some] at hs
    obtain ⟨-, hs⟩ := hs
    split at hs
    · cases hs
      exact .same
    · rename_i i hfd
      split at hs <;> cases hs
      · exact .same
      · exact .call t _ hfd
  | connect t fd =>
    simp only [step, Option.ite_none_right_eq_some] at hs
    obtain ⟨-, hs⟩ := hs
    split at hs
    · cases hs
      exact .ret t fd
    · rename_i i hfd
      split at hs <;> cases hs
      · exact .same
      · exact .call t _ hfd
  | close t fd =>
    simp only [step, Option.ite_none_right_eq_some] at hs
    obtain ⟨-, hs⟩ := hs
    split at hs <;> cases hs
    · exact .same
    · rename_i i hfd
      exact .close t hfd
  | run t r =>
    simp only [step, Option.ite_none_right_eq_some] at hs
    obtain ⟨-, hs⟩ := hs
    split at hs
    · exact .callStep ‹_› hs
    · exact .closeStep ‹_› hs
    · cases hs
  | create fd isSocket => exact .create hs
  | setUserNonblock fd v =>
    obtain ⟨i, -, rfl⟩ := Option.map_eq_some_iff.mp hs
    exact .option rfl rfl rfl
  | setSocketTimeout fd type ms =>
    obtain ⟨i, -, rfl⟩ := Option.map_eq_some_iff.mp hs
    cases type <;> exact .option rfl rfl rfl
  | setTcpConnectTimeout fd ms =>
    obtain ⟨i, -, rfl⟩ := Option.map_eq_some_iff.mp hs
    exact .option rfl rfl rfl
  | yield t =>
    simp only [step, Option.ite_none_right_eq_some, Option.some.injEq] at hs
    obtain ⟨-, rfl⟩ := hs
    exact .yield t
  | hold t =>
    simp only [step, Option.ite_none_right_eq_some, Option.some.injEq] at hs
    obtain ⟨-, rfl⟩ := hs
    exact .hold t
  | term t =>
    simp only [step, Option.ite_none_right_eq_some, Option.some.injEq] at hs
    obtain ⟨-, rfl⟩ := hs
    exact .term t
  | wake t =>
    cases hs
    exact .wake _
  | trigger channel op =>
    cases hs
    exact .wake _
  | expire x =>
    simp only [step] at hs
    split at hs <;> cases hs
    exact .expire ‹_›
  | callback x => exact .callback hs
  | swapIn t => exact .swapIn hs

/-! ### Steps of one task, and steps that move none -/

section
variable {s s' : State τ ℓ} {t : τ} {c : Call} {p : CallPc}

/-- A frame that a step does not move. -/
theorem Frame.mono (h : Frame loopOf s t c p) (hn : s.nextFdInfo ≤ s'.nextFdInfo)
    (hqueue : s.Queued loopOf t → s'.Queued loopOf t)
    (htimer : ∀ x, (TaskPc.call c p).timer = some x → (s.timer x).pc.pending = true →
      (s'.timer x).pc.pending = true ∨ s'.Queued loopOf t)
    (hkeeps : Keeps s s' c ∨
      ((TaskPc.call c p).waits = some c → (TaskPc.call c p).timer = none → s'.Queued loopOf t)) :
    Frame loopOf s' t c p := by
  refine ⟨Nat.lt_of_lt_of_le h.fdInfo hn, ?_⟩
  have hr := h.ready
  have hpend : ∀ x, (TaskPc.call c p).timer = some x →
      ((s.timer x).pc.pending = true ∨ s.Queued loopOf t) →
      ((s'.timer x).pc.pending = true ∨ s'.Queued loopOf t) := fun x hx hor => by
    rcases hor with hp | hq
    · exact htimer x hx hp
    · exact .inr (hqueue hq)
  have hway : ∀ {A B : Prop}, (TaskPc.call c p).waits = some c → (TaskPc.call c p).timer = none →
      (Keeps s s' c → A → B) → (A ∨ s.Queued loopOf t) → (B ∨ s'.Queued loopOf t) := by
    rintro A B hw ht hAB (ha | hq)
    · rcases hkeeps with hk | hk
      · exact .inl (hAB hk ha)
      · exact .inr (hk hw ht)
    · exact .inr (hqueue hq)
  cases p with
  | addEvent timer =>
    cases timer with
    | none => trivial
    | some x => exact hpend x rfl hr
  | updateChannel timer =>
    cases timer with
    | none => exact hway rfl rfl (fun hk => hk.1) hr
    | some x => exact hpend x rfl hr
  | coHold timer =>
    cases timer with
    | none => exact hway rfl rfl (fun hk => hk.2 _) hr
    | some x => exact hpend x rfl hr
  | held timer =>
    cases timer with
    | none => exact hway rfl rfl (fun hk => hk.2 _) hr
    | some x => exact hpend x rfl hr
  | _ => trivial

/-- A step of task `t`. -/
theorem Inv.task [DecidableEq τ] (hI : Inv loopOf s) (t : τ) (pc : TaskPc)
    (hpc : s'.pc = Function.update s.pc t pc)
    (hn : s.nextFdInfo ≤ s'.nextFdInfo) (hm : s.nextTimer ≤ s'.nextTimer)
    (hqueue : ∀ u, u ≠ t → s.Queued loopOf u → s'.Queued loopOf u)
    (htimer : ∀ x, (s.pc t).owned ≠ some x → x < s.nextTimer → s'.timer x = s.timer x)
    (hkeeps : ∀ u c p, u ≠ t → s.pc u = .call c p → Keeps s s' c ∨
      ((s.pc u).waits = some c → (s.pc u).timer = none → s'.Queued loopOf u))
    (hself : ∀ c p, pc = .call c p → Frame loopOf s' t c p)
    (howned : ∀ x, pc.owned = some x →
      (s.pc t).owned = some x ∨ s.nextTimer ≤ x ∧ x < s'.nextTimer)
    (hfds : ∀ fd i, s'.fds fd = some i → s.fds fd = some i)
    (hexpired : ∀ x, (s'.timer x).pc = .finished → (s'.timer x).expired = true) :
    Inv loopOf s' := by
  -- the timers of the other tasks are not those of `t`
  have hother : ∀ u x, u ≠ t → (s.pc u).owned = some x → (s.pc t).owned ≠ some x :=
    fun u x hu hx hx' => hu (hI.distinct u t x hx hx')
  have htask : ∀ u x, (s'.pc u).owned = some x → u ≠ t ∧ (s.pc u).owned = some x ∨
      u = t ∧ ((s.pc t).owned = some x ∨ s.nextTimer ≤ x ∧ x < s'.nextTimer) := fun u x hx => by
    rw [hpc] at hx
    rcases eq_or_ne u t with rfl | hu
    · rw [Function.update_self] at hx
      exact .inr ⟨rfl, howned x hx⟩
    · rw [Function.update_of_ne hu] at hx
      exact .inl ⟨hu, hx⟩
  refine ⟨fun u c p hu => ?_, fun u x hx => ?_, fun u u' x hx hx' => ?_,
    fun fd i hi => Nat.lt_of_lt_of_le (hI.fds fd i (hfds fd i hi)) hn, hexpired⟩
  · -- the other tasks keep what they know
    rw [hpc] at hu
    rcases eq_or_ne u t with rfl | hne
    · rw [Function.update_self] at hu
      exact hself c p hu
    · rw [Function.update_of_ne hne] at hu
      have hk := hkeeps u c p hne hu
      rw [hu] at hk
      refine (hI.frame u c p hu).mono hn (hqueue u hne) (fun x hx hp => .inl ?_) hk
      have hx : (s.pc u).owned = some x := by
        rw [hu]
        cases p <;> first | exact hx | cases hx
      rwa [htimer x (hother u x hne hx) (hI.owned u x hx)]
  · rcases htask u x hx with ⟨-, hx⟩ | ⟨rfl, hx | hx⟩
    · exact Nat.lt_of_lt_of_le (hI.owned u x hx) hm
    · exact Nat.lt_of_lt_of_le (hI.owned u x hx) hm
    · exact hx.2
  · -- a timer that `t` has from this step on is a new one
    rcases htask u x hx with ⟨-, hx⟩ | ⟨rfl, hx | hx⟩ <;>
      rcases htask u' x hx' with ⟨-, hx'⟩ | ⟨rfl, hx' | hx'⟩
    · exact hI.distinct u u' x hx hx'
    · exact hI.distinct u u' x hx hx'
    · exact absurd (hI.owned u x hx) (by omega)
    · exact hI.distinct u u' x hx hx'
    · rfl
    · rfl
    · exact absurd (hI.owned u' x hx') (by omega)
    · rfl
    · rfl

/-- A step that moves no task. -/
theorem Inv.world (hI : Inv loopOf s) (hpc : s'.pc = s.pc) (hn : s.nextFdInfo ≤ s'.nextFdInfo)
    (hm : s'.nextTimer = s.nextTimer) (hqueue : ∀ u, s.Queued loopOf u → s'.Queued loopOf u)
    (htimer : ∀ u x, (s.pc u).timer = some x → (s.timer x).pc.pending = true →
      (s'.timer x).pc.pending = true ∨ s'.Queued loopOf u)
    (hkeeps : ∀ u c p, s.pc u = .call c p → Keeps s s' c ∨
      ((s.pc u).waits = some c → (s.pc u).timer = none → s'.Queued loopOf u))
    (hfds : ∀ fd i, s'.fds fd = some i → i < s'.nextFdInfo)
    (hexpired : ∀ x, (s'.timer x).pc = .finished → (s'.timer x).expired = true) :
    Inv loopOf s' := by
  refine ⟨fun u c p hu => ?_, ?_, ?_, hfds, hexpired⟩
  · rw [hpc] at hu
    have hk := hkeeps u c p hu
    have ht := htimer u
    rw [hu] at hk ht
    exact (hI.frame u c p hu).mono hn (hqueue u) ht hk
  · rw [hpc, hm]
    exact hI.owned
  · rw [hpc]
    exact hI.distinct

/-- The callback of a timer that is set has not returned, or has marked it. -/
theorem Inv.expired_update (hI : Inv loopOf s) {x : Nat} {z : Timeout ℓ}
    (hz : z.pc = .finished → z.expired = true) (y : Nat)
    (hy : (Function.update s.timer x z y).pc = .finished) :
    (Function.update s.timer x z y).expired = true := by
  rcases eq_or_ne y x with rfl | hne
  · rw [Function.update_self] at hy ⊢
    exact hz hy
  · rw [Function.update_of_ne hne] at hy ⊢
    exact hI.expired y hy

/-- A task that waits without a timer is not armed. -/
theorem queued_of_timer_eq_none (h : s.Queued loopOf t ∨ s.Armed t)
    (ht : (s.pc t).timer = none) : s.Queued loopOf t :=
  h.resolve_right fun ⟨x, hx, _⟩ => by rw [ht] at hx; cases hx

/-- Setting an option of a descriptor. -/
theorem inv_setFdInfo {i : Nat} {info : FdInfo τ} (hI : Inv loopOf s)
    (hfd : info.m_fd = (s.fdInfo i).m_fd) (hstate : info.m_state = (s.fdInfo i).m_state)
    (hev : info.m_events = (s.fdInfo i).m_events) : Inv loopOf (s.setFdInfo i info) :=
  hI.world rfl le_rfl rfl (fun _ => id) (fun _ _ _ => .inl)
    (fun _ _ _ _ => .inl (keeps_setFdInfo hfd hstate fun _ he => by rwa [hev])) hI.fds hI.expired

/-- The timer leaves the set, and its callback is still to begin. -/
theorem inv_expire {x : Nat} (hI : Inv loopOf s) :
    Inv loopOf (s.setTimer x { s.timer x with pc := .cancelEvent }) := by
  refine hI.world rfl le_rfl rfl (fun _ => id) (fun u y _ hp => .inl ?_)
    (fun _ _ _ _ => .inl ⟨id, fun _ => id⟩) hI.fds (hI.expired_update nofun)
  simp only [State.setTimer]
  rcases eq_or_ne y x with rfl | hne
  · rw [Function.update_self]
    rfl
  · rwa [Function.update_of_ne hne]

theorem inv_wake [DecidableEq ℓ] (hI : Inv loopOf s) (o : Option τ) :
    Inv loopOf (s.wake loopOf o) := by
  obtain ⟨q, hq, hmem⟩ := wake_eq loopOf s o
  rw [hq]
  exact hI.world rfl le_rfl rfl (fun u => hmem _ u) (fun _ _ _ => .inl)
    (fun _ _ _ _ => .inl ⟨id, fun _ => id⟩) hI.fds hI.expired

/-- Every step of the callback of a timeout. -/
theorem inv_callbackStep [DecidableEq ℓ] {x : Nat} (hI : Inv loopOf s)
    (hg : Woken loopOf s (.callback x))
    (hs : callbackStep s x (s.timer x).pc = some s') : Inv loopOf s' := by
  -- a timer whose callback has begun arms no task
  have hbegun : (s.timer x).pc.pending = false → ∀ (z : Timeout ℓ) u y,
      (s.pc u).timer = some y → (s.timer y).pc.pending = true →
        (Function.update s.timer x z y).pc.pending = true ∨ s.Queued loopOf u :=
    fun hx z u y _ hp => by
      have hne : y ≠ x := by rintro rfl; rw [hx] at hp; cases hp
      rw [Function.update_of_ne hne]
      exact .inl hp
  cases hpc : (s.timer x).pc with
  | cancelEvent =>
    obtain ⟨hown, hothers⟩ := hg hpc
    simp only [hpc, callbackStep, Option.some.injEq] at hs
    subst hs
    refine hI.world rfl le_rfl rfl (fun _ => id) (fun u y hy hp => ?_) (fun u c p hu => ?_) hI.fds
      (hI.expired_update (by simp))
    · rcases eq_or_ne y x with rfl | hne
      · exact .inr (hown u hy)
      · left
        show (Function.update s.timer x _ y).pc.pending = true
        rwa [Function.update_of_ne hne]
    · by_cases hc : c.fdInfo = (s.timer x).fdInfo ∧ c.event = (s.timer x).event
      · have hway : s.Queued loopOf u ∨ s.Armed u → (s.pc u).timer = none → s.Queued loopOf u :=
          queued_of_timer_eq_none
        exact .inr fun hw ht => hway (hothers u c hw hc.1 hc.2) ht
      · refine .inl (keeps_setFdInfo FdInfo.cancelEvent_fd FdInfo.cancelEvent_state fun hi he => ?_)
        rwa [FdInfo.cancelEvent_events fun he => hc ⟨hi, he⟩]
  | updateChannel =>
    simp only [hpc, callbackStep] at hs
    obtain ⟨s₁, hu, rfl⟩ := Option.map_eq_some_iff.mp hs
    obtain ⟨info, m, hs₁⟩ := updateChannel_eq hu
    have hkeeps : ∀ c, Keeps s s₁ c := fun _ => keeps_updateChannel hu
    subst hs₁
    exact hI.world rfl le_rfl rfl (fun _ => id) (hbegun (by rw [hpc]; rfl) _)
      (fun u c p _ => .inl (hkeeps c)) hI.fds (hI.expired_update (by simp))
  | setExpired =>
    simp only [hpc, callbackStep, Option.some.injEq] at hs
    subst hs
    exact hI.world rfl le_rfl rfl (fun _ => id) (hbegun (by rw [hpc]; rfl) _)
      (fun u c p _ => .inl ⟨id, fun _ => id⟩) hI.fds (hI.expired_update fun _ => rfl)
  | _ => simp [hpc, callbackStep] at hs

/-- What a loop can switch to. -/
theorem swapInPc_cases {pc pc' : TaskPc} (h : swapInPc pc = some pc') :
    pc' = .exec ∨ ∃ c timer, pc = .call c (.held timer) ∧ pc' = .call c (.cancel timer) := by
  unfold swapInPc at h
  split at h <;> cases h
  · exact .inl rfl
  · exact .inl rfl
  · exact .inr ⟨_, _, rfl, rfl⟩

/-- A step of task `t` that changes no channel, timer or queue. -/
theorem Inv.move [DecidableEq τ] (hI : Inv loopOf s) (t : τ) (pc : TaskPc)
    (cur : ℓ → Option τ) (returned : τ → Option SysResult)
    (howned : ∀ x, pc.owned = some x → (s.pc t).owned = some x)
    (hself : ∀ c p, pc = .call c p → Frame loopOf s t c p) :
    Inv loopOf { s with
      pc := Function.update s.pc t pc, m_curTask := cur, returned := returned } := by
  refine hI.task t pc rfl le_rfl le_rfl (fun _ _ => id) (fun _ _ _ => rfl)
    (fun _ _ _ _ _ => .inl ⟨id, fun _ => id⟩) (fun c p hp => ?_) (fun x hx => .inl (howned x hx))
    (fun _ _ => id) hI.expired
  have h := hself c p hp
  exact ⟨h.fdInfo, h.ready⟩

end

/-! ### The steps -/

section
variable [DecidableEq τ] {s s' : State τ ℓ} {t : τ} {c : Call} {p : CallPc}

theorem inv_ret (hI : Inv loopOf s) (t : τ) (r : SysResult) : Inv loopOf (s.ret t r) :=
  hI.move t .exec s.m_curTask _ nofun (by simp)

/-- Calling `do_io` or `connect`, past the checks. -/
theorem inv_enter {i fd : Nat} (hI : Inv loopOf s) (t : τ) (h : HookFun)
    (hfd : s.fds fd = some i) : Inv loopOf (s.goto t (.call ⟨h, i⟩ .fun_)) :=
  hI.move t _ s.m_curTask s.returned nofun fun c p hp => by
    cases hp
    exact ⟨hI.fds fd i hfd, trivial⟩

variable [DecidableEq ℓ]

/-- Every step of a hooked call. -/
theorem inv_callStep {r : SysResult} (hI : Inv loopOf s) (hpc : s.pc t = .call c p)
    (hs : callStep loopOf s t c r p = some s') : Inv loopOf s' := by
  have hf := hI.frame t c p hpc
  have hwait : ∀ ms, Inv loopOf (wait s t c ms) := fun ms => by
    refine hI.move t _ s.m_curTask s.returned (fun x hx => ?_) fun c' p' hp => ?_
    · split at hx <;> cases hx
    · cases hp
      refine ⟨hf.fdInfo, ?_⟩
      split <;> trivial
  cases p with
  | fun_ =>
    simp only [callStep] at hs
    split at hs <;> cases hs
    · exact hI
    · exact hwait _
    · exact hwait _
    · exact inv_ret hI t _
  | addTimer ms =>
    -- the new timer is in the set
    simp only [callStep, Option.some.injEq] at hs
    subst hs
    refine hI.task t _ rfl le_rfl (Nat.le_succ _)
      (fun _ _ => id) (fun x _ hx => Function.update_of_ne (Nat.ne_of_lt hx) _ _)
      (fun _ _ _ _ _ => .inl ⟨id, fun _ => id⟩) (fun c' p' hp => ?_) (fun x hx => .inr ?_)
      (fun _ _ => id) (hI.expired_update nofun)
    · cases hp
      refine ⟨hf.fdInfo, .inl ?_⟩
      show (Function.update s.timer s.nextTimer _ s.nextTimer).pc.pending = true
      rw [Function.update_self]
      rfl
    · cases hx
      exact ⟨le_rfl, Nat.lt_succ_self _⟩
  | addEvent timer =>
    simp only [callStep, Option.some.injEq] at hs
    subst hs
    refine hI.task t _ rfl le_rfl le_rfl (fun _ _ => id)
      (fun _ _ _ => rfl) (fun u c' p' _ _ => .inl (keeps_setFdInfo FdInfo.addEvent_fd
        FdInfo.addEvent_state fun _ he => ?_)) (fun c' p' hp => ?_) (fun x hx => .inl ?_)
      (fun _ _ => id) hI.expired
    · rw [FdInfo.addEvent_events, he]
      rfl
    · cases hp
      refine ⟨hf.fdInfo, ?_⟩
      cases timer with
      | none =>
        -- without a timer it is the event that counts
        left
        show (Function.update s.fdInfo c.fdInfo _ c.fdInfo).m_events c.event = true
        rw [Function.update_self, FdInfo.addEvent_events]
        simp
      | some x => exact hf.ready
    · rw [hpc]
      exact hx
  | updateChannel timer =>
    obtain ⟨s₁, hu, rfl⟩ := Option.map_eq_some_iff.mp hs
    obtain ⟨info, m, hs₁⟩ := updateChannel_eq hu
    have hkeeps : ∀ c', Keeps s s₁ c' := fun _ => keeps_updateChannel hu
    have hlisten := listens_updateChannel (c := c) hu
    subst hs₁
    refine hI.task t _ rfl le_rfl le_rfl (fun _ _ => id)
      (fun _ _ _ => rfl) (fun u c' p' _ _ => .inl (hkeeps c')) (fun c' p' hp => ?_)
      (fun x hx => .inl ?_) (fun _ _ => id) hI.expired
    · cases hp
      refine ⟨hf.fdInfo, ?_⟩
      cases timer with
      | none => exact hf.ready.imp hlisten id
      | some x => exact hf.ready
    · rw [hpc]
      exact hx
  | coHold timer =>
    simp only [callStep, Option.some.injEq] at hs
    subst hs
    refine hI.move t _ _ s.returned (fun x hx => ?_) fun c' p' hp => ?_
    · rw [hpc]
      exact hx
    · cases hp
      exact ⟨hf.fdInfo, by cases timer <;> exact hf.ready⟩
  | held timer => cases hs
  | cancel timer =>
    cases timer with
    | none =>
      simp only [callStep, Option.some.injEq] at hs
      subst hs
      exact hI.move t _ s.m_curTask s.returned nofun fun c' p' hp => by
        cases hp; exact ⟨hf.fdInfo, trivial⟩
    | some x =>
      -- no other task has this timer
      simp only [callStep, Option.some.injEq] at hs
      subst hs
      refine hI.task t _ rfl le_rfl le_rfl (fun _ _ => id)
        (fun y hy _ => Function.update_of_ne (fun h => hy (by rw [hpc, h]; rfl)) _ _)
        (fun _ _ _ _ _ => .inl ⟨id, fun _ => id⟩) (fun c' p' hp => ?_) (fun y hy => .inl ?_)
        (fun _ _ => id) (hI.expired_update fun hx => ?_)
      · cases hp
        exact ⟨hf.fdInfo, trivial⟩
      · rw [hpc]
        exact hy
      · unfold Timeout.cancel at hx ⊢
        split at hx
        · cases hx
        · exact hI.expired x hx
  | expired timer =>
    simp only [callStep] at hs
    split at hs
    · cases hs
      exact inv_ret hI t _
    · split at hs <;> cases hs <;>
        exact hI.move t _ s.m_curTask s.returned nofun fun c' p' hp => by
          cases hp; exact ⟨hf.fdInfo, trivial⟩
  | getsockopt =>
    simp only [callStep, Option.some.injEq] at hs
    subst hs
    exact inv_ret hI t _

/-- Every step of `close`. -/
theorem inv_closeStep {fd i : Nat} {r : SysResult} {p : ClosePc} (hI : Inv loopOf s)
    (hpc : s.pc t = .close fd i p) (hg : Woken loopOf s (.run t r))
    (hs : closeStep loopOf s t fd i r p = some s') : Inv loopOf s' := by
  cases p with
  | clearEvent =>
    simp only [closeStep, Option.some.injEq] at hs
    subst hs
    refine hI.task t _ rfl le_rfl le_rfl (fun _ _ => id) (fun _ _ _ => rfl)
      (fun u c p _ hu => ?_) (by simp) nofun (fun _ _ => id) hI.expired
    by_cases hc : c.fdInfo = i
    · -- whoever waits for this channel has another way
      have hway : s.Queued loopOf u ∨ s.Armed u → (s.pc u).timer = none → s.Queued loopOf u :=
        queued_of_timer_eq_none
      exact .inr fun hw ht => hway (hg i (by rw [hpc]; rfl) u c hw hc) ht
    · exact .inl (keeps_of_eq (Function.update_of_ne hc _ _) rfl)
  | removeChannel =>
    obtain ⟨s₁, hu, rfl⟩ := Option.map_eq_some_iff.mp hs
    obtain ⟨info, m, hs₁⟩ := removeChannel_eq hu
    have hkeeps : ∀ c, Keeps s s₁ c := fun _ => keeps_removeChannel hu
    subst hs₁
    exact hI.task t _ rfl le_rfl le_rfl (fun _ _ => id) (fun _ _ _ => rfl)
      (fun u c p _ _ => .inl (hkeeps c)) (by simp) nofun (fun _ _ => id) hI.expired
  | del =>
    obtain ⟨q, rfl, hmem⟩ := del_eq hs
    refine hI.task t .exec rfl le_rfl le_rfl (fun u _ => hmem _ u) (fun _ _ _ => rfl)
      (fun _ _ _ _ _ => .inl ⟨id, fun _ => id⟩) (by simp) nofun (fun fd' i hi => ?_) hI.expired
    rcases eq_or_ne fd' fd with rfl | hne
    · simp [State.ret, State.goto] at hi
    · simpa [State.ret, State.goto, Function.update_of_ne hne] using hi

/-- `create` makes a channel that is nobody's yet. -/
theorem inv_create {fd : Nat} {isSocket : Bool} (hI : Inv loopOf s)
    (hs : step loopOf s (.create fd isSocket) = some s') : Inv loopOf s' := by
  obtain ⟨q, rfl, hmem⟩ := create_eq hs
  refine hI.world rfl (Nat.le_succ _) rfl (fun u => hmem _ u) (fun _ _ _ => .inl)
    (fun u c p hu => .inl (keeps_of_eq (Function.update_of_ne ?_ _ _) rfl)) (fun fd' i hi => ?_)
    hI.expired
  · exact Nat.ne_of_lt (hI.frame u c p hu).fdInfo
  · rcases eq_or_ne fd' fd with rfl | hne
    · simp only [Function.update_self, Option.some.injEq] at hi
      exact hi ▸ Nat.lt_succ_self _
    · simp only [Function.update_of_ne hne] at hi
      exact Nat.lt_succ_of_lt (hI.fds fd' i hi)

/-- The next task of a queue runs. -/
theorem inv_swapIn (hI : Inv loopOf s) (hs : step loopOf s (.swapIn t) = some s') :
    Inv loopOf s' := by
  simp only [step] at hs
  split at hs
  · rename_i pc hcur hpc
    simp only [Option.ite_none_right_eq_some, Option.some.injEq] at hs
    obtain ⟨-, rfl⟩ := hs
    refine hI.task t pc rfl le_rfl le_rfl (fun u hu hq => ?_) (fun _ _ _ => rfl)
      (fun _ _ _ _ _ => .inl ⟨id, fun _ => id⟩) (fun c p hp => ?_) (fun x hx => .inl ?_)
      (fun _ _ => id) hI.expired
    · -- the other tasks stay in the queue
      show u ∈ Function.update s.queue (loopOf t) _ (loopOf u)
      rcases eq_or_ne (loopOf u) (loopOf t) with hl | hl
      · rw [hl, Function.update_self]
        exact (List.mem_erase_of_ne hu).mpr (hl ▸ hq)
      · rwa [Function.update_of_ne hl]
    · rcases swapInPc_cases hpc with rfl | ⟨c', timer, hheld, rfl⟩ <;> cases hp
      exact ⟨(hI.frame t c _ hheld).fdInfo, trivial⟩
    · rcases swapInPc_cases hpc with rfl | ⟨c', timer, hheld, rfl⟩
      · cases hx
      · rw [hheld]
        exact hx
  · cases hs

/-- **The step lemma.** -/
theorem inv_step {a : Action τ ℓ} (hI : Inv loopOf s) (hg : Woken loopOf s a)
    (hs : step loopOf s a = some s') : Inv loopOf s' := by
  cases step_effect hs with
  | same => exact hI
  | ret t fd => exact inv_ret hI t _
  | call t h hfd => exact inv_enter hI t h hfd
  | close t hfd => exact hI.move t _ s.m_curTask s.returned nofun (by simp)
  | callStep hpc hs => exact inv_callStep hI hpc hs
  | closeStep hpc hs => exact inv_closeStep hI hpc hg hs
  | create hs => exact inv_create hI hs
  | option hfd hstate hev => exact inv_setFdInfo hI hfd hstate hev
  | yield t => exact inv_wake (hI.move t .ready _ s.returned nofun (by simp)) _
  | hold t => exact hI.move t .hold _ s.returned nofun (by simp)
  | term t => exact hI.move t .term _ s.returned nofun (by simp)
  | wake o => exact inv_wake hI o
  | expire hpc => exact inv_expire hI
  | callback hs => exact inv_callbackStep hI hg hs
  | swapIn hs => exact inv_swapIn hI hs

theorem inv_reachable (h : (system loopOf).ReachableUnder (Woken loopOf) s) : Inv loopOf s :=
  h.invariant (fun _ ⟨loop, h0⟩ => h0 ▸ inv_initial loop) fun _ _ _ hI hg hs => inv_step hI hg hs

/-! ### The property -/

theorem Inv.awake (hI : Inv loopOf s) : Awake loopOf s where
  way t c timer hpc := by
    have hr := (hI.frame t c _ hpc).ready
    cases timer with
    | none => exact hr.imp id .inr
    | some x => exact .inr (hr.imp (fun hp => ⟨x, rfl, hp⟩) id)
  timeout t c x hpc hx := by
    apply (hI.frame t c _ hpc).ready.resolve_left
    intro hp
    rw [hx] at hp
    cases hp
  timedOut t c x r s' hpc hx hs := by
    simp only [step, hpc, callStep, Option.any_some, hI.expired x hx, if_true,
      Option.ite_none_right_eq_some, Option.some.injEq] at hs
    obtain ⟨-, rfl⟩ := hs
    simp [State.ret, State.goto]

/-- **No forgotten task** in any run in which no callback of a timeout and no `close` takes an event
    from a task that nothing else will wake. -/
theorem woken_awake (h : (system loopOf).ReachableUnder (Woken loopOf) s) : Awake loopOf s :=
  (inv_reachable h).awake

end

/-- The same task; the descriptor becomes readable just before the callback begins. -/
def timeoutAfterEvent : List (Action Unit Unit) :=
  [.wake (), .swapIn (), .create 5 true, .setSocketTimeout 5 .SO_RCVTIMEO 1000, .io () .recv 5,
    .run () .EAGAIN, .run () .EAGAIN, .run () .EAGAIN, .run () .EAGAIN, .run () .EAGAIN,
    .expire 0, .trigger 0 fun f => f = .EPOLLIN, .callback 0, .callback 0, .callback 0]

/-- It is still waiting, and queued. -/
theorem woken_awake_afterEvent :
    ∃ s : State Unit Unit, s.pc () = .call ⟨.do_io .recv 1000, 0⟩ (.held (some 0)) ∧
      Awake id s :=
  have hr : (system (ℓ := Unit) id).exec (initial Unit ()) timeoutAfterEvent = some _ := rfl
  ⟨_, rfl, woken_awake (.exec (.init ⟨(), rfl⟩) (by decide) hr)⟩

end LimWebserver.Hook
