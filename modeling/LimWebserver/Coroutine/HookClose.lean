import LimWebserver.Coroutine.HookAwake

namespace LimWebserver.HookClose

open LimWebserver.Lib
open LimWebserver.Hook

/-!
# Coroutine — `Hook`: what `close` leaves behind

`close` clears the events of the channel, takes it out of the poller of the loop that it runs in,
drops it from the `FdManager`, and only then triggers it.

* `Closed` — after `close` no poller has the channel, the tasks that held on it are queued, and no
  callback of a timeout brings it back;
* `close_forgets_task` — the tasks that hold are not woken: the channel has no event by then;
* `Quiet` — the condition on the steps under which nothing is left behind;
* `Inv`, `Inv.mono` — the invariant, and what a step has to say about the task and the timer that it
  moves; `quiet_closed` — every run.
-/

variable {τ ℓ : Type*} [DecidableEq τ] [DecidableEq ℓ] {loopOf : τ → ℓ}

/-! ### The property -/

/-- The `FdManager` does not have the channel, or no longer. -/
def Dropped (s : State τ ℓ) (i : Nat) : Prop := s.fds (s.fdInfo i).m_fd ≠ some i

/-- The call that a task holds in. -/
def holds : TaskPc → Option Call
  | .call c (.held _) => some c
  | _ => none

/-- The channel that a task is about to drop in `close`. -/
def closing : TaskPc → Option Nat
  | .close _ i .del => some i
  | _ => none

/-- **What `close` promises** of the channel `i` of its descriptor. -/
structure Closed (loopOf : τ → ℓ) (s : State τ ℓ) : Prop where
  /-- When it returns, no event loop has the channel in its map. -/
  channel : ∀ t fd i r s', s.pc t = .close fd i .del → step loopOf s (.run t r) = some s' →
    ∀ loop fd', s'.m_channel_map loop fd' ≠ some i
  /-- Each task that holds on the channel is queued. -/
  tasks : ∀ t fd i r s', s.pc t = .close fd i .del → step loopOf s (.run t r) = some s' →
    ∀ u, ∀ c ∈ holds (s'.pc u), c.fdInfo = i → s'.Queued loopOf u
  /-- Afterwards the callbacks of the timeouts change no map. -/
  timeouts : ∀ x s', Dropped s (s.timer x).fdInfo → step loopOf s (.callback x) = some s' →
    s'.m_channel_map = s.m_channel_map

/-- One task receives from a descriptor and holds, another one closes it. -/
def closeHeld : List (Hook.Action Bool Unit) :=
  [.wake true, .swapIn true, .create 5 true, .io true .recv 5, .run true .EAGAIN,
    .run true .EAGAIN, .run true .EAGAIN, .run true .EAGAIN, .wake false, .swapIn false,
    .close false 5, .run false (.returns 0), .run false (.returns 0)]

/-- **A forgotten task.** When `close` triggers the channel its events are cleared, and the task
    that holds is not woken. -/
theorem close_forgets_task :
    ¬ ∀ s : State Bool Unit, (system fun _ => ()).Reachable s → Closed (fun _ => ()) s := by
  intro h
  have hr : (system (ℓ := Unit) fun _ => ()).exec (initial Bool ()) closeHeld = some _ := rfl
  have hq := (h _ (LTS.reachable_of_exec ⟨(), rfl⟩ hr)).tasks false 5 0 (.returns 0) _ rfl rfl true
    ⟨.do_io .recv (-1), 0⟩ rfl rfl
  exact absurd hq List.not_mem_nil

/-! ### The condition -/

/-- A task is between `removeChannel` and `del` of the channel. -/
def Closing (s : State τ ℓ) (i : Nat) : Prop := ∃ t, closing (s.pc t) = some i

/-- No callback of a timeout of the channel has begun that is still to edit the poller. -/
def Still (s : State τ ℓ) (i : Nat) : Prop := ∀ x < s.nextTimer, (s.timer x).fdInfo = i →
  (s.timer x).pc ≠ .cancelEvent ∧ (s.timer x).pc ≠ .updateChannel

/-- What `close` finds when it takes the channel out of the poller: no other loop has it, and each
    task that holds on it has been woken. -/
def Alone (loopOf : τ → ℓ) (s : State τ ℓ) (t : τ) (i : Nat) : Prop :=
  (∀ loop, loop ≠ loopOf t →
    EpollPoller.hasChannel (s.m_channel_map loop) i (s.fdInfo i) = false) ∧
  ∀ u, ∀ c ∈ holds (s.pc u), c.fdInfo = i → s.Queued loopOf u

/-- The condition on the next step of a task: `close` takes the channel out of the poller when it is
    `Alone` with it; from then until it has dropped it no task enters the poller or a hold with it;
    and it is dropped while no callback of its timeouts is under way. -/
def QuietTask (loopOf : τ → ℓ) (s : State τ ℓ) (t : τ) : TaskPc → Prop
  | .close _ i .removeChannel => Alone loopOf s t i
  -- `del` drops what the descriptor has by now
  | .close fd _ .del => ∀ i ∈ s.fds fd, Still s i
  | .call c (.updateChannel _) => ¬ Closing s c.fdInfo
  | .call c (.coHold _) => ¬ Closing s c.fdInfo
  | _ => True

/-- The condition on the steps, where also no callback of a timeout edits the poller for a channel
    that is about to be dropped, and no timeout of a dropped channel expires. -/
def Quiet (loopOf : τ → ℓ) (s : State τ ℓ) : Hook.Action τ ℓ → Prop
  | .run t _ => QuietTask loopOf s t (s.pc t)
  | .create fd _ => ∀ i ∈ s.fds fd, Still s i
  | .expire x => ¬ Dropped s (s.timer x).fdInfo
  | .callback x => (s.timer x).pc = .updateChannel → ¬ Closing s (s.timer x).fdInfo
  | _ => True

instance (s : State τ ℓ) (i : Nat) : Decidable (Dropped s i) := inferInstanceAs (Decidable (_ ≠ _))

instance (s : State τ ℓ) (i : Nat) : Decidable (Still s i) :=
  inferInstanceAs (Decidable (∀ x < _, _))

section
variable [Fintype τ] [Fintype ℓ] (loopOf : τ → ℓ) (s : State τ ℓ)

instance (i : Nat) : Decidable (Closing s i) := inferInstanceAs (Decidable (∃ _, _))

instance (t : τ) (i : Nat) : Decidable (Alone loopOf s t i) := inferInstanceAs (Decidable (_ ∧ _))

instance (t : τ) : ∀ pc, Decidable (QuietTask loopOf s t pc)
  | .close _ i .removeChannel => inferInstanceAs (Decidable (Alone loopOf s t i))
  | .close _ _ .del => inferInstanceAs (Decidable (∀ i ∈ _, _))
  | .call c (.updateChannel _) => inferInstanceAs (Decidable (¬ Closing s c.fdInfo))
  | .call c (.coHold _) => inferInstanceAs (Decidable (¬ Closing s c.fdInfo))
  | .close _ _ .clearEvent | .call _ .fun_ | .call _ (.addTimer _) | .call _ (.addEvent _)
  | .call _ (.held _) | .call _ (.cancel _) | .call _ (.expired _) | .call _ .getsockopt
  | .ready | .exec | .hold | .term => inferInstanceAs (Decidable True)

instance : ∀ a, Decidable (Quiet loopOf s a)
  | .run t _ => inferInstanceAs (Decidable (QuietTask loopOf s t (s.pc t)))
  | .create _ _ => inferInstanceAs (Decidable (∀ i ∈ _, _))
  | .expire _ => inferInstanceAs (Decidable (¬ _))
  | .callback _ => inferInstanceAs (Decidable (_ → _))
  | .io _ _ _ | .connect _ _ | .close _ _ | .setUserNonblock _ _ | .setSocketTimeout _ _ _
  | .setTcpConnectTimeout _ _ | .yield _ | .hold _ | .term _ | .wake _ | .trigger _ _
  | .swapIn _ => inferInstanceAs (Decidable True)

end

/-! ### The invariant -/

/-- The callback of the timer has begun and is still to edit the poller. -/
def begun : TimeoutPc → Bool
  | .cancelEvent => true
  | .updateChannel => true
  | _ => false

/-- What a task knows at a program point of its hooked call. -/
structure Known (loopOf : τ → ℓ) (s : State τ ℓ) (t : τ) : Prop where
  call : ∀ c p, s.pc t = .call c p → c.fdInfo < s.nextFdInfo
  close : ∀ fd i p, s.pc t = .close fd i p → i < s.nextFdInfo
  /-- The channel that is about to be dropped is in no map, and whoever holds on it is queued. -/
  channel : ∀ i, closing (s.pc t) = some i → ∀ loop fd, s.m_channel_map loop fd ≠ some i
  tasks : ∀ i, closing (s.pc t) = some i →
    ∀ u, ∀ c ∈ holds (s.pc u), c.fdInfo = i → s.Queued loopOf u

/-- What is known of a timer. -/
structure Timed (s : State τ ℓ) (x : Nat) : Prop where
  fdInfo : (s.timer x).pc ≠ .cancelled →
    x < s.nextTimer ∧ (s.timer x).fdInfo < s.nextFdInfo
  begun : begun (s.timer x).pc = true → ¬ Dropped s (s.timer x).fdInfo

/-- **The invariant.** -/
structure Inv (loopOf : τ → ℓ) (s : State τ ℓ) : Prop where
  known : ∀ t, Known loopOf s t
  timed : ∀ x, Timed s x
  fds : ∀ fd i, s.fds fd = some i → i < s.nextFdInfo
  /-- A channel is in a map under its own descriptor. -/
  maps : ∀ loop fd i, s.m_channel_map loop fd = some i →
    fd = (s.fdInfo i).m_fd ∧ i < s.nextFdInfo

omit [DecidableEq τ] [DecidableEq ℓ] in
theorem inv_initial (loop : ℓ) : Inv loopOf (initial τ loop) where
  known _ := ⟨nofun, nofun, nofun, nofun⟩
  timed _ := ⟨fun h => absurd rfl h, by rintro ⟨⟩⟩
  fds := nofun
  maps := nofun

section
variable {s s' : State τ ℓ} {t : τ}

omit [DecidableEq τ] [DecidableEq ℓ] in
/-- **What a step has to say** about the tasks and timers that it moves. -/
theorem Inv.mono (h : Inv loopOf s) (hnext : s.nextFdInfo ≤ s'.nextFdInfo)
    (hnext' : s.nextTimer ≤ s'.nextTimer)
    (hfd : ∀ i, i < s.nextFdInfo → (s'.fdInfo i).m_fd = (s.fdInfo i).m_fd)
    (hfds : ∀ fd i, s'.fds fd = some i → i < s'.nextFdInfo)
    (hmaps : ∀ loop fd i, s'.m_channel_map loop fd = some i → s.m_channel_map loop fd = some i ∨
      fd = (s.fdInfo i).m_fd ∧ i < s.nextFdInfo ∧ ¬ Closing s i)
    (hdrop : ∀ i, ¬ Dropped s i → Dropped s' i → Still s i)
    (hqueue : ∀ u, s'.pc u = s.pc u → s.Queued loopOf u → s'.Queued loopOf u)
    (hknown : ∀ u, s'.pc u = s.pc u ∨
      Known loopOf s' u ∧ ∀ c ∈ holds (s'.pc u), ¬ Closing s' c.fdInfo)
    (htimed : ∀ x, s'.timer x = s.timer x ∨ Timed s' x) : Inv loopOf s' := by
  refine ⟨fun t => ?_, fun x => ?_, hfds, fun loop fd i hi => ?_⟩
  · rcases hknown t with hsame | ⟨hk, -⟩
    · -- a task that has not moved, and may be about to drop a channel
      have hclosing : ∀ i, closing (s'.pc t) = some i → Closing s i := fun i hi =>
        ⟨t, by rw [← hsame]; exact hi⟩
      refine ⟨fun c p hp => ?_, fun fd i p hp => ?_, fun i hi loop fd hm => ?_,
        fun i hi u c hc hci => ?_⟩
      · exact Nat.lt_of_lt_of_le ((h.known t).call c p (hsame ▸ hp)) hnext
      · exact Nat.lt_of_lt_of_le ((h.known t).close fd i p (hsame ▸ hp)) hnext
      · rcases hmaps loop fd i hm with hm | ⟨-, -, hno⟩
        · exact (h.known t).channel i (hsame ▸ hi) loop fd hm
        · exact hno (hclosing i hi)
      · -- whoever holds from this step on holds on another channel
        rcases hknown u with hsame' | ⟨-, hno⟩
        · exact hqueue u hsame' ((h.known t).tasks i (hsame ▸ hi) u c (hsame' ▸ hc) hci)
        · exact absurd ⟨t, by rw [hci]; exact hi⟩ (hno c hc)
    · exact hk
  · rcases htimed x with hsame | hx
    · have hx := h.timed x
      constructor
      · rw [hsame]
        intro hc
        obtain ⟨h1, h2⟩ := hx.fdInfo hc
        exact ⟨Nat.lt_of_lt_of_le h1 hnext', Nat.lt_of_lt_of_le h2 hnext⟩
      · -- a channel is dropped only while its callbacks are `Still`
        rw [hsame]
        intro hb hd
        have hpc : (s.timer x).pc ≠ .cancelled := fun heq => by
          rw [heq] at hb; exact absurd hb (by rintro ⟨⟩)
        obtain ⟨h1, h2⟩ := hdrop _ (hx.begun hb) hd x (hx.fdInfo hpc).1 rfl
        cases hp : (s.timer x).pc with
        | cancelEvent => exact h1 hp
        | updateChannel => exact h2 hp
        | _ => rw [hp] at hb; exact absurd hb (by rintro ⟨⟩)
    · exact hx
  · rcases hmaps loop fd i hi with hm | ⟨hfd', hlt, -⟩
    · obtain ⟨hfd', hlt⟩ := h.maps loop fd i hm
      exact ⟨hfd'.trans (hfd i hlt).symm, Nat.lt_of_lt_of_le hlt hnext⟩
    · exact ⟨hfd'.trans (hfd i hlt).symm, Nat.lt_of_lt_of_le hlt hnext⟩

omit [DecidableEq τ] [DecidableEq ℓ] in
/-- A step that keeps the `FdManager` drops no channel. -/
theorem Inv.dropped_of (h : Inv loopOf s) {i : Nat} (hd : Dropped s' i) (hfds : s'.fds = s.fds)
    (hfd : ∀ i, i < s.nextFdInfo → (s'.fdInfo i).m_fd = (s.fdInfo i).m_fd) : Dropped s i := by
  intro hi
  apply hd
  rw [hfds, hfd i (h.fds _ i hi), hi]

omit [DecidableEq ℓ] in
/-- A step of task `t`, which is not about to drop a channel afterwards. -/
theorem Inv.task (h : Inv loopOf s) (t : τ) (pc : TaskPc) (hpc : s'.pc = Function.update s.pc t pc)
    (hnext : s'.nextFdInfo = s.nextFdInfo) (hnext' : s.nextTimer ≤ s'.nextTimer)
    (hfd : ∀ i, i < s.nextFdInfo → (s'.fdInfo i).m_fd = (s.fdInfo i).m_fd)
    (hfds : s'.fds = s.fds)
    (hmaps : ∀ loop fd i, s'.m_channel_map loop fd = some i → s.m_channel_map loop fd = some i ∨
      fd = (s.fdInfo i).m_fd ∧ i < s.nextFdInfo ∧ ¬ Closing s i)
    (hqueue : ∀ u, s'.pc u = s.pc u → s.Queued loopOf u → s'.Queued loopOf u)
    (hcall : ∀ c p, pc = .call c p → c.fdInfo < s.nextFdInfo)
    (hclose : ∀ fd i p, pc = .close fd i p → i < s.nextFdInfo) (hclosing : closing pc = none)
    (hholds : ∀ c ∈ holds pc, ¬ Closing s c.fdInfo)
    (htimed : ∀ x, s'.timer x = s.timer x ∨ Timed s' x) : Inv loopOf s' := by
  have hself : s'.pc t = pc := by rw [hpc, Function.update_self]
  have hother : ∀ u, u ≠ t → s'.pc u = s.pc u := fun u hu => by rw [hpc, Function.update_of_ne hu]
  refine h.mono hnext.ge hnext' hfd (fun fd i hi => ?_) hmaps
    (fun i hi hd => absurd (h.dropped_of hd hfds hfd) hi) hqueue (fun u => ?_) htimed
  · rw [hnext]
    exact h.fds fd i (hfds ▸ hi)
  · by_cases heq : u = t
    · right
      rw [heq]
      refine ⟨⟨fun c p hp => ?_, fun fd i p hp => ?_, fun i hi => ?_, fun i hi => ?_⟩,
        fun c hc => ?_⟩
      · rw [hnext]; exact hcall c p (hself ▸ hp)
      · rw [hnext]; exact hclose fd i p (hself ▸ hp)
      · rw [hself, hclosing] at hi; exact absurd hi (by simp)
      · rw [hself, hclosing] at hi; exact absurd hi (by simp)
      · intro ⟨v, hv⟩
        by_cases hvt : v = t
        · rw [hvt, hself, hclosing] at hv; exact absurd hv (by simp)
        · exact hholds c (hself ▸ hc) ⟨v, hother v hvt ▸ hv⟩
    · exact .inl (hother u heq)

omit [DecidableEq ℓ] in
/-- A step of task `t` that changes no channel, timer or queue. -/
theorem Inv.move (h : Inv loopOf s) (t : τ) (pc : TaskPc) (cur : ℓ → Option τ)
    (returned : τ → Option SysResult) (hcall : ∀ c p, pc = .call c p → c.fdInfo < s.nextFdInfo)
    (hclose : ∀ fd i p, pc = .close fd i p → i < s.nextFdInfo) (hclosing : closing pc = none)
    (hholds : ∀ c ∈ holds pc, ¬ Closing s c.fdInfo) : Inv loopOf { s with
      pc := Function.update s.pc t pc, m_curTask := cur, returned := returned } :=
  h.task t pc rfl rfl le_rfl (fun _ _ => rfl) rfl (fun _ _ _ => .inl) (fun _ _ => id) hcall hclose
    hclosing hholds fun _ => .inl rfl

omit [DecidableEq τ] [DecidableEq ℓ] in
/-- A step that moves no task and leaves the timers and the `FdManager` alone. -/
theorem Inv.world (h : Inv loopOf s) (hpc : s'.pc = s.pc) (hnext : s'.nextFdInfo = s.nextFdInfo)
    (hnext' : s'.nextTimer = s.nextTimer)
    (hfd : ∀ i, i < s.nextFdInfo → (s'.fdInfo i).m_fd = (s.fdInfo i).m_fd) (hfds : s'.fds = s.fds)
    (hmaps : ∀ loop fd i, s'.m_channel_map loop fd = some i → s.m_channel_map loop fd = some i ∨
      fd = (s.fdInfo i).m_fd ∧ i < s.nextFdInfo ∧ ¬ Closing s i)
    (hqueue : ∀ u, s.Queued loopOf u → s'.Queued loopOf u)
    (htimed : ∀ x, s'.timer x = s.timer x ∨ Timed s' x) : Inv loopOf s' := by
  refine h.mono hnext.ge hnext'.ge hfd (fun fd i hi => ?_) hmaps
    (fun i hi hd => absurd (h.dropped_of hd hfds hfd) hi) (fun u _ => hqueue u)
    (fun u => .inl (by rw [hpc])) htimed
  rw [hnext]
  exact h.fds fd i (hfds ▸ hi)

omit [DecidableEq τ] [DecidableEq ℓ] in
/-- Another value of a channel keeps its descriptor. -/
theorem setFdInfo_fd {i : Nat} {info : FdInfo τ} (hfd : info.m_fd = (s.fdInfo i).m_fd) (j : Nat) :
    ((s.setFdInfo i info).fdInfo j).m_fd = (s.fdInfo j).m_fd := by
  by_cases hj : j = i
  · rw [hj, ← hfd]
    exact congrArg FdInfo.m_fd (Function.update_self _ _ _)
  · exact congrArg FdInfo.m_fd (Function.update_of_ne hj _ _)

omit [DecidableEq τ] in
/-- `updateChannel` puts no other channel into a map. -/
theorem updateChannel_spec {loop : ℓ} {i : Nat} (hs : s.updateChannel loop i = some s') :
    ∃ info m, s' = { s with fdInfo := info, m_channel_map := m } ∧
      (∀ j, (info j).m_fd = (s.fdInfo j).m_fd) ∧
      ∀ loop' fd j, m loop' fd = some j →
        s.m_channel_map loop' fd = some j ∨ fd = (s.fdInfo i).m_fd ∧ j = i := by
  obtain ⟨⟨m, info⟩, hu, hs⟩ := Option.map_eq_some_iff.mp hs
  refine ⟨_, _, hs.symm, setFdInfo_fd (EpollPoller.updateChannel_info hu).1,
    fun loop' fd j hj => ?_⟩
  have hj : Function.update s.m_channel_map loop m loop' fd = some j := hj
  by_cases hl : loop' = loop
  · rw [hl, Function.update_self] at hj
    rw [hl]
    exact EpollPoller.updateChannel_only hu hj
  · rw [Function.update_of_ne hl] at hj
    exact .inl hj

omit [DecidableEq τ] in
/-- `removeChannel` takes the channel out of the map of the loop. -/
theorem removeChannel_spec {loop : ℓ} {i : Nat} (hs : s.removeChannel loop i = some s') :
    ∃ info m, s' = { s with fdInfo := info, m_channel_map := m } ∧
      (∀ j, (info j).m_fd = (s.fdInfo j).m_fd) ∧
      (∀ loop' fd j, m loop' fd = some j → s.m_channel_map loop' fd = some j) ∧
      m loop (s.fdInfo i).m_fd ≠ some i := by
  unfold State.removeChannel at hs
  split at hs
  · obtain ⟨⟨m, info⟩, hu, hs⟩ := Option.map_eq_some_iff.mp hs
    obtain ⟨-, hfd, -, -⟩ := EpollPoller.removeChannel_spec hu
    have hm := EpollPoller.removeChannel_only hu
    refine ⟨_, _, hs.symm, setFdInfo_fd hfd, fun loop' fd j hj => ?_, ?_⟩
    · have hj : Function.update s.m_channel_map loop m loop' fd = some j := hj
      by_cases hl : loop' = loop
      · rw [hl, Function.update_self, hm] at hj
        rw [hl]
        by_cases hfd : fd = (s.fdInfo i).m_fd
        · rw [hfd, Function.update_self] at hj
          exact absurd hj (by simp)
        · rwa [Function.update_of_ne hfd] at hj
      · rwa [Function.update_of_ne hl] at hj
    · show Function.update s.m_channel_map loop m loop (s.fdInfo i).m_fd ≠ some i
      rw [Function.update_self, hm, Function.update_self]
      simp
  · rename_i hno
    rw [← Option.some.inj hs]
    exact ⟨_, _, rfl, fun _ => rfl, fun _ _ _ => id, fun heq => hno (decide_eq_true heq)⟩

/-- What is known of a timer with another value. -/
structure TimedAs (s : State τ ℓ) (x : Nat) (y : Timeout ℓ) : Prop where
  fdInfo : y.pc ≠ .cancelled → x < s.nextTimer ∧ y.fdInfo < s.nextFdInfo
  begun : begun y.pc = true → ¬ Dropped s y.fdInfo

omit [DecidableEq τ] [DecidableEq ℓ] in
/-- A step that changes one timer. -/
theorem timed_setTimer {x : Nat} {y : Timeout ℓ} (htimer : s'.timer = Function.update s.timer x y)
    (hy : y = s.timer x ∨ TimedAs s' x y) (z : Nat) : s'.timer z = s.timer z ∨ Timed s' z := by
  by_cases hz : z = x
  · have hself : s'.timer x = y := by rw [htimer, Function.update_self]
    rw [hz, hself]
    apply hy.imp id
    intro hy
    constructor
    · rw [hself]; exact hy.fdInfo
    · rw [hself]; exact hy.begun
  · exact .inl (by rw [htimer, Function.update_of_ne hz])

/-! ### The steps -/

variable {c : Call}

/-- Every step of a hooked call. -/
theorem inv_callStep {p : CallPc} {r : SysResult} (h : Inv loopOf s) (hpc : s.pc t = .call c p)
    (hg : Quiet loopOf s (.run t r)) (hs : callStep loopOf s t c r p = some s') :
    Inv loopOf s' := by
  have hc : c.fdInfo < s.nextFdInfo := (h.known t).call c p hpc
  have hc' : ∀ p' c' q, TaskPc.call c p' = .call c' q → c'.fdInfo < s.nextFdInfo := by
    intro p' c' q hq
    cases hq; exact hc
  have hgoto : ∀ p', holds (.call c p') = none → Inv loopOf (s.goto t (.call c p')) := by
    intro p' hp'
    apply h.move t _ s.m_curTask s.returned (hc' p') (by simp) rfl
    intro c' hc'
    rw [hp'] at hc'
    exact absurd hc' (by simp)
  have hret : ∀ r, Inv loopOf (s.ret t r) := fun r =>
    h.move t .exec s.m_curTask _ (by simp) (by simp) rfl (by rintro _ ⟨⟩)
  have hwait : ∀ ms, Inv loopOf (wait s t c ms) := fun ms => hgoto _ (by split <;> rfl)
  have hg : QuietTask loopOf s t (s.pc t) := hg
  rw [hpc] at hg
  cases p with
  | fun_ =>
    simp only [callStep] at hs
    split at hs <;> rw [← Option.some.inj hs]
    · exact h
    · exact hwait _
    · exact hwait _
    · exact hret _
  | addTimer ms =>
    rw [← Option.some.inj hs]
    refine h.task t _ rfl rfl (Nat.le_succ _) (fun _ _ => rfl) rfl (fun _ _ _ => .inl)
      (fun _ _ => id) (hc' _) (by simp) rfl (by rintro _ ⟨⟩) fun x => ?_
    refine timed_setTimer (y := ⟨ms, loopOf t, c.fdInfo, c.event, false, .armed⟩) rfl
      (.inr ⟨fun _ => ?_, by rintro ⟨⟩⟩) x
    exact ⟨Nat.lt_succ_self _, hc⟩
  | addEvent timer =>
    rw [← Option.some.inj hs]
    exact h.task t _ rfl rfl le_rfl (fun j _ => setFdInfo_fd FdInfo.addEvent_fd j) rfl
      (fun _ _ _ => .inl) (fun _ _ => id) (hc' _) (by simp) rfl (by rintro _ ⟨⟩) fun _ => .inl rfl
  | updateChannel timer =>
    obtain ⟨s₁, hu, hs⟩ := Option.map_eq_some_iff.mp hs
    obtain ⟨info, m, rfl, hfd, hmaps⟩ := updateChannel_spec hu
    rw [← hs]
    refine h.task t _ rfl rfl le_rfl (fun j _ => hfd j) rfl (fun loop fd j hj => ?_) (fun _ _ => id)
      (hc' _) (by simp) rfl (by rintro _ ⟨⟩) fun _ => .inl rfl
    apply (hmaps loop fd j hj).imp id
    rintro ⟨hfd, rfl⟩
    exact ⟨hfd, hc, hg⟩
  | coHold timer =>
    -- the channel that the task holds on from now is not about to be dropped
    rw [← Option.some.inj hs]
    apply h.move t _ _ s.returned (hc' _) (by simp) rfl
    intro c' hc''
    rw [← Option.some.inj hc'']
    exact hg
  | held timer => exact absurd hs (by rintro ⟨⟩)
  | cancel timer =>
    cases timer with
    | none =>
      rw [← Option.some.inj hs]
      exact hgoto _ rfl
    | some x =>
      rw [← Option.some.inj hs]
      refine h.task t _ rfl rfl le_rfl (fun _ _ => rfl) rfl (fun _ _ _ => .inl) (fun _ _ => id)
        (hc' _) (by simp) rfl (by rintro _ ⟨⟩) fun y => timed_setTimer rfl ?_ y
      cases hx : (s.timer x).pc with
      | armed =>
        -- a cancelled timeout promises nothing any more
        have hcancel : (s.timer x).cancel.pc = .cancelled := by rw [Timeout.cancel, hx]
        exact .inr ⟨fun hne => absurd hcancel hne, fun hb => by
          rw [hcancel] at hb; exact absurd hb (by rintro ⟨⟩)⟩
      | _ => exact .inl (by rw [Timeout.cancel, hx])
  | expired timer =>
    simp only [callStep] at hs
    split at hs
    · rw [← Option.some.inj hs]
      exact hret _
    · split at hs <;> rw [← Option.some.inj hs] <;> exact hgoto _ rfl
  | getsockopt =>
    rw [← Option.some.inj hs]
    exact hret _

/-- Every step of `close`. -/
theorem inv_closeStep {fd i : Nat} {p : ClosePc} {r : SysResult} (h : Inv loopOf s)
    (hpc : s.pc t = .close fd i p) (hg : Quiet loopOf s (.run t r))
    (hs : closeStep loopOf s t fd i r p = some s') : Inv loopOf s' := by
  have hi : i < s.nextFdInfo := (h.known t).close fd i p hpc
  have hg : QuietTask loopOf s t (s.pc t) := hg
  rw [hpc] at hg
  cases p with
  | clearEvent =>
    rw [← Option.some.inj hs]
    exact h.task t _ rfl rfl le_rfl (fun j _ => setFdInfo_fd FdInfo.clearEvent_fd j) rfl
      (fun _ _ _ => .inl) (fun _ _ => id) (by simp)
      (fun fd' i' p' hp => by cases hp; exact hi) rfl (by rintro _ ⟨⟩)
      fun _ => .inl rfl
  | removeChannel =>
    obtain ⟨s₁, hu, hs⟩ := Option.map_eq_some_iff.mp hs
    obtain ⟨info, m, rfl, hfd, hmaps, hself⟩ := removeChannel_spec hu
    obtain ⟨hother, hqueued⟩ := hg
    rw [← hs]
    refine h.mono le_rfl le_rfl (fun j _ => hfd j) h.fds
      (fun loop fd' j hj => .inl (hmaps loop fd' j hj))
      (fun j hj hd => absurd (h.dropped_of hd rfl fun k _ => hfd k) hj) (fun _ _ => id)
      (fun u => ?_) fun _ => .inl rfl
    by_cases hu : u = t
    · right
      have hpc' : Function.update s.pc t (.close fd i .del) u = .close fd i .del := by
        rw [hu, Function.update_self]
      refine ⟨⟨fun c p hp => ?_, fun fd' j p hp => ?_, fun j hj loop fd' hm => ?_,
        fun j hj v c hc hcj => ?_⟩, fun c hc => ?_⟩
      · exact absurd (hpc'.symm.trans hp) (by simp)
      · cases hpc'.symm.trans hp
        exact hi
      · have hj : i = j := Option.some.inj ((congrArg closing hpc').symm.trans hj)
        rw [← hj] at hm
        -- it was in the map of another loop
        have hm' := hmaps loop fd' i hm
        have hfd' := (h.maps loop fd' i hm').1
        by_cases hl : loop = loopOf t
        · rw [hl, hfd'] at hm
          exact hself hm
        · have hno := hother loop hl
          rw [hfd'] at hm'
          exact absurd hm' (of_decide_eq_false hno)
      · have hj : i = j := Option.some.inj ((congrArg closing hpc').symm.trans hj)
        by_cases hv : v = t
        · have hpv : Function.update s.pc t (.close fd i .del) v = .close fd i .del := by
            rw [hv, Function.update_self]
          exact absurd ((congrArg holds hpv).symm.trans hc) (by rintro ⟨⟩)
        · have hpv : Function.update s.pc t (.close fd i .del) v = s.pc v :=
            Function.update_of_ne hv _ _
          exact hqueued v c ((congrArg holds hpv).symm.trans hc) (hcj.trans hj.symm)
      · exact absurd ((congrArg holds hpc').symm.trans hc) (by rintro ⟨⟩)
    · exact .inl (Function.update_of_ne hu _ _)
  | del =>
    obtain ⟨q, rfl, hmem⟩ := del_eq hs
    refine h.mono le_rfl le_rfl (fun _ _ => rfl) (fun fd' j hj => ?_) (fun _ _ _ => .inl)
      (fun j hj hd => ?_) (fun u _ => hmem _ u) (fun u => ?_) fun _ => .inl rfl
    · have hj : Function.update s.fds fd none fd' = some j := hj
      by_cases hf : fd' = fd
      · rw [hf, Function.update_self] at hj
        exact absurd hj (by simp)
      · rw [Function.update_of_ne hf] at hj
        exact h.fds fd' j hj
    · -- the channel that `del` drops is the one of its descriptor
      have hj : s.fds (s.fdInfo j).m_fd = some j := not_not.mp hj
      have hd : Function.update s.fds fd none (s.fdInfo j).m_fd ≠ some j := hd
      by_cases hf : (s.fdInfo j).m_fd = fd
      · exact hg j (hf ▸ hj)
      · rw [Function.update_of_ne hf] at hd
        exact absurd hj hd
    · by_cases hu : u = t
      · right
        have hpc' : Function.update s.pc t .exec u = .exec := by rw [hu, Function.update_self]
        exact ⟨⟨fun c p hp => absurd (hpc'.symm.trans hp) (by simp),
          fun fd' j p hp => absurd (hpc'.symm.trans hp) (by simp),
          fun j hj => absurd ((congrArg closing hpc').symm.trans hj) (by rintro ⟨⟩),
          fun j hj => absurd ((congrArg closing hpc').symm.trans hj) (by rintro ⟨⟩)⟩,
          fun c hc => absurd ((congrArg holds hpc').symm.trans hc) (by rintro ⟨⟩)⟩
      · exact .inl (Function.update_of_ne hu _ _)

omit [DecidableEq τ] in
/-- Every step of the callback of a timeout. -/
theorem inv_callbackStep {x : Nat} (h : Inv loopOf s) (hg : Quiet loopOf s (.callback x))
    (hs : callbackStep s x (s.timer x).pc = some s') : Inv loopOf s' := by
  have hx := h.timed x
  cases hpc : (s.timer x).pc with
  | cancelEvent =>
    rw [hpc] at hs
    rw [← Option.some.inj hs]
    have hfd : ∀ j, ((s.setFdInfo (s.timer x).fdInfo ((s.fdInfo (s.timer x).fdInfo).cancelEvent
        (s.timer x).event)).fdInfo j).m_fd = (s.fdInfo j).m_fd := setFdInfo_fd FdInfo.cancelEvent_fd
    refine h.world rfl rfl rfl (fun j _ => hfd j) rfl (fun _ _ _ => .inl) (fun _ => id)
      (timed_setTimer (y := { s.timer x with pc := .updateChannel }) rfl
        (.inr ⟨fun _ => ?_, fun _ hd => ?_⟩))
    · exact hx.fdInfo (by rw [hpc]; simp)
    · exact hx.begun (by rw [hpc]; rfl) (h.dropped_of hd rfl fun j _ => hfd j)
  | updateChannel =>
    rw [hpc] at hs
    obtain ⟨s₁, hu, hs⟩ := Option.map_eq_some_iff.mp hs
    obtain ⟨info, m, rfl, hfd, hmaps⟩ := updateChannel_spec hu
    rw [← hs]
    obtain ⟨hlt, hlt'⟩ := hx.fdInfo (by rw [hpc]; simp)
    refine h.world rfl rfl rfl (fun j _ => hfd j) rfl (fun loop fd j hj => ?_) (fun _ => id)
      (timed_setTimer (y := { s.timer x with pc := .setExpired }) rfl
        (.inr ⟨fun _ => ⟨hlt, hlt'⟩, by rintro ⟨⟩⟩))
    -- it may come back into the map, because nobody is about to drop it
    refine (hmaps loop fd j hj).imp id fun ⟨hfd, hj⟩ => ?_
    rw [hj]
    exact ⟨hfd, hlt', hg hpc⟩
  | setExpired =>
    rw [hpc] at hs
    rw [← Option.some.inj hs]
    have hlt := hx.fdInfo (by rw [hpc]; simp)
    exact h.world rfl rfl rfl (fun _ _ => rfl) rfl (fun _ _ _ => .inl) (fun _ => id)
      (timed_setTimer (y := { s.timer x with expired := true, pc := .finished }) rfl
        (.inr ⟨fun _ => hlt, by rintro ⟨⟩⟩))
  | _ => rw [hpc] at hs; exact absurd hs (by rintro ⟨⟩)

omit [DecidableEq τ] [DecidableEq ℓ] in
/-- Setting an option of a descriptor. -/
theorem inv_setFdInfo {i : Nat} {info : FdInfo τ} (h : Inv loopOf s)
    (hfd : info.m_fd = (s.fdInfo i).m_fd) : Inv loopOf (s.setFdInfo i info) :=
  h.world rfl rfl rfl (fun j _ => setFdInfo_fd hfd j) rfl (fun _ _ _ => .inl) (fun _ => id)
    fun _ => .inl rfl

omit [DecidableEq τ] in
theorem inv_wake (h : Inv loopOf s) (o : Option τ) : Inv loopOf (s.wake loopOf o) := by
  obtain ⟨q, hq, hmem⟩ := wake_eq loopOf s o
  rw [hq]
  exact h.world rfl rfl rfl (fun _ _ => rfl) rfl (fun _ _ _ => .inl) (fun u => hmem _ u)
    fun _ => .inl rfl

/-- `create` replaces the channel of its descriptor while no callback of its timeouts is under
    way. -/
theorem inv_create {fd : Nat} {isSocket : Bool} (h : Inv loopOf s)
    (hg : Quiet loopOf s (.create fd isSocket))
    (hs : step loopOf s (.create fd isSocket) = some s') : Inv loopOf s' := by
  obtain ⟨q, rfl, hmem⟩ := create_eq hs
  have hold : ∀ j, j < s.nextFdInfo → (Function.update s.fdInfo s.nextFdInfo
      (.create fd isSocket) j).m_fd = (s.fdInfo j).m_fd := fun j hj =>
    congrArg FdInfo.m_fd (Function.update_of_ne (Nat.ne_of_lt hj) _ _)
  refine h.mono (Nat.le_succ _) le_rfl hold (fun fd' j hj => ?_) (fun _ _ _ => .inl)
    (fun j hj hd => ?_) (fun u _ => hmem _ u) (fun _ => .inl rfl) fun _ => .inl rfl
  · have hj : Function.update s.fds fd (some s.nextFdInfo) fd' = some j := hj
    by_cases hf : fd' = fd
    · rw [hf, Function.update_self] at hj
      exact Option.some.inj hj ▸ Nat.lt_succ_self _
    · rw [Function.update_of_ne hf] at hj
      exact Nat.lt_succ_of_lt (h.fds fd' j hj)
  · have hj : s.fds (s.fdInfo j).m_fd = some j := not_not.mp hj
    have hd : Function.update s.fds fd (some s.nextFdInfo) (Function.update s.fdInfo s.nextFdInfo
        (.create fd isSocket) j).m_fd ≠ some j := hd
    rw [hold j (h.fds _ j hj)] at hd
    by_cases hf : (s.fdInfo j).m_fd = fd
    · exact hg j (hf ▸ hj)
    · rw [Function.update_of_ne hf] at hd
      exact absurd hj hd

/-- The next task of a queue runs. -/
theorem inv_swapIn (h : Inv loopOf s) (hs : step loopOf s (.swapIn t) = some s') :
    Inv loopOf s' := by
  simp only [step] at hs
  split at hs
  · rename_i pc hcur hpc
    obtain ⟨-, hs⟩ := Option.ite_none_right_eq_some.mp hs
    rw [← Option.some.inj hs]
    have hpc' : pc = .exec ∨ ∃ c timer, s.pc t = .call c (.held timer) ∧
        pc = .call c (.cancel timer) := swapInPc_cases hpc
    refine h.task t pc rfl rfl le_rfl (fun _ _ => rfl) rfl (fun _ _ _ => .inl)
      (fun u hu hq => ?_) (fun c p hp => ?_) (fun fd i p hp => ?_) ?_ (fun c hc => ?_)
      fun _ => .inl rfl
    · -- the task that is taken out of the queue is the one that moves
      show u ∈ Function.update s.queue (loopOf t) _ (loopOf u)
      have hne : u ≠ t := fun heq => by
        have hself : Function.update s.pc t pc u = pc := by rw [heq, Function.update_self]
        have hsame : pc = s.pc t := (hself.symm.trans hu).trans (by rw [heq])
        rcases hpc' with rfl | ⟨c, timer, hheld, rfl⟩
        · rw [← hsame] at hpc; exact absurd hpc (by rintro ⟨⟩)
        · rw [hheld] at hsame; cases hsame
      by_cases hl : loopOf u = loopOf t
      · rw [hl, Function.update_self]
        exact (List.mem_erase_of_ne hne).mpr (hl ▸ hq)
      · rw [Function.update_of_ne hl]
        exact hq
    · rcases hpc' with rfl | ⟨c', timer, hheld, rfl⟩
      · exact absurd hp (by simp)
      · cases hp
        exact (h.known t).call c _ hheld
    · rcases hpc' with rfl | ⟨c', timer, hheld, rfl⟩ <;> exact absurd hp (by simp)
    · rcases hpc' with rfl | ⟨c', timer, hheld, rfl⟩ <;> rfl
    · rcases hpc' with rfl | ⟨c', timer, hheld, rfl⟩ <;> exact absurd hc (by rintro ⟨⟩)
  · exact absurd hs (by simp)

/-- **The step lemma.** -/
theorem inv_step {a : Hook.Action τ ℓ} (h : Inv loopOf s) (hg : Quiet loopOf s a)
    (hs : step loopOf s a = some s') : Inv loopOf s' := by
  have hleave : ∀ t pc cur returned, (∀ c p, pc ≠ .call c p) → (∀ fd i p, pc ≠ .close fd i p) →
      closing pc = none → holds pc = none → Inv loopOf { s with
        pc := Function.update s.pc t pc, m_curTask := cur, returned := returned } :=
    fun t pc cur returned hcall hclose hclosing hholds =>
      h.move t pc cur returned (fun c p hp => absurd hp (hcall c p))
        (fun fd i p hp => absurd hp (hclose fd i p)) hclosing
        (fun c hc => by rw [hholds] at hc; exact absurd hc (by simp))
  cases step_effect hs with
  | same => exact h
  | ret t fd => exact hleave t .exec s.m_curTask _ nofun nofun rfl rfl
  | call t f hfd =>
    exact h.move t _ s.m_curTask s.returned (fun c p hp => by cases hp; exact h.fds _ _ hfd)
      (by simp) rfl (by rintro _ ⟨⟩)
  | close t hfd =>
    exact h.move t _ s.m_curTask s.returned (by simp)
      (fun fd' j p hp => by cases hp; exact h.fds _ _ hfd) rfl (by rintro _ ⟨⟩)
  | callStep hpc hs => exact inv_callStep h hpc hg hs
  | closeStep hpc hs => exact inv_closeStep h hpc hg hs
  | create hs => exact inv_create h hg hs
  | option hfd hstate hev => exact inv_setFdInfo h hfd
  | yield t => exact inv_wake (hleave t .ready _ s.returned nofun nofun rfl rfl) _
  | hold t => exact hleave t .hold _ s.returned nofun nofun rfl rfl
  | term t => exact hleave t .term _ s.returned nofun nofun rfl rfl
  | wake o => exact inv_wake h o
  | expire hpc =>
    have hlt := (h.timed _).fdInfo (by rw [hpc]; simp)
    exact h.world rfl rfl rfl (fun _ _ => rfl) rfl (fun _ _ _ => .inl) (fun _ => id)
      (timed_setTimer rfl (.inr ⟨fun _ => hlt, fun _ => hg⟩))
  | callback hs => exact inv_callbackStep h hg hs
  | swapIn hs => exact inv_swapIn h hs

theorem inv_reachable (h : (system loopOf).ReachableUnder (Quiet loopOf) s) : Inv loopOf s :=
  h.invariant (fun _ ⟨loop, h0⟩ => h0 ▸ inv_initial loop) fun _ _ _ hI hg hs => inv_step hI hg hs

/-! ### The property -/

/-- What `del` does before `close` returns. -/
theorem del_spec {fd i : Nat} {r : SysResult} (hpc : s.pc t = .close fd i .del)
    (hs : step loopOf s (.run t r) = some s') : s'.m_channel_map = s.m_channel_map ∧
      s'.pc = Function.update s.pc t .exec ∧ ∀ u, s.Queued loopOf u → s'.Queued loopOf u := by
  obtain ⟨-, hs⟩ := Option.ite_none_right_eq_some.mp hs
  rw [hpc] at hs
  obtain ⟨q, rfl, hmem⟩ := del_eq hs
  exact ⟨rfl, rfl, fun u => hmem _ u⟩

theorem Inv.closed (h : Inv loopOf s) : Closed loopOf s where
  channel t fd i r s' hpc hs loop fd' := by
    rw [(del_spec hpc hs).1]
    exact (h.known t).channel i (by rw [hpc]; rfl) loop fd'
  tasks t fd i r s' hpc hs u c hc hci := by
    obtain ⟨-, hpc', hqueue⟩ := del_spec hpc hs
    refine hqueue u ((h.known t).tasks i (by rw [hpc]; rfl) u c ?_ hci)
    rw [hpc'] at hc
    by_cases hu : u = t
    · rw [hu, Function.update_self] at hc
      exact absurd hc (by rintro ⟨⟩)
    · rwa [Function.update_of_ne hu] at hc
  timeouts x s' hd hs := by
    have hs : callbackStep s x (s.timer x).pc = some s' := hs
    cases hx : (s.timer x).pc with
    -- the channel of a callback that edits the poller has not been dropped
    | cancelEvent => exact absurd hd ((h.timed x).begun (by rw [hx]; rfl))
    | updateChannel => exact absurd hd ((h.timed x).begun (by rw [hx]; rfl))
    | setExpired =>
      rw [hx] at hs
      rw [← Option.some.inj hs]
      rfl
    | _ => rw [hx] at hs; exact absurd hs (by rintro ⟨⟩)

/-- **Nothing is left behind** by `close` in any run that meets the condition. -/
theorem quiet_closed (h : (system loopOf).ReachableUnder (Quiet loopOf) s) : Closed loopOf s :=
  (inv_reachable h).closed

end

/-- The task that receives, with a timeout, is woken before the other one closes the descriptor. -/
def closeWoken : List (Hook.Action Bool Unit) :=
  [.wake true, .swapIn true, .create 5 true, .setSocketTimeout 5 .SO_RCVTIMEO 1000,
    .io true .recv 5, .run true .EAGAIN, .run true .EAGAIN, .run true .EAGAIN, .run true .EAGAIN,
    .run true .EAGAIN, .trigger 0 fun f => f = .EPOLLIN, .wake false, .swapIn false,
    .close false 5, .run false (.returns 0), .run false (.returns 0)]

theorem quiet_closed_woken : ∃ s : State Bool Unit,
    s.pc false = .close 5 0 .del ∧ Closed (fun _ => ()) s :=
  have hr : (system (ℓ := Unit) fun _ => ()).exec (initial Bool ()) closeWoken = some _ := rfl
  ⟨_, rfl, quiet_closed (.exec (.init ⟨(), rfl⟩) (by decide) hr)⟩

end LimWebserver.HookClose
