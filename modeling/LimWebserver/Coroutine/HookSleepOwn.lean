import LimWebserver.Coroutine.HookSleep
import LimWebserver.Coroutine.ProcessorTasks

namespace LimWebserver.HookSleep

open LimWebserver.Lib

/-!
# Coroutine — under `Awaited` every wake belongs to its wait

As long as `Awaited` holds, each hold in a hooked call has its one wake, which is what a processor
relies on: the event loop runs like `ProcessorTasks`, step by step.

* `Matches` — an entry of the queues belongs to the wait of its task;
* `Follows` — the processor that an event loop runs like;
* `Follows.move`, `Follows.swapOut`, `Follows.loop`, `Follows.wake` — one lemma for each kind of
  step;
* `follows_step` — one case for each action; `awaited_ownWakes` — every run.
-/

variable {τ : Type*}

/-! ### The relation -/

/-- The task runs when it stands there. -/
def TaskPc.active : TaskPc → Bool
  | .exec => true
  | .call _ (.held _) => false
  | .call _ _ => true
  | .sleep (.held _) => false
  | .sleep _ => true
  | _ => false

/-- The timer of the sleep that a task is in, from `addTimer` until it is resumed. -/
def TaskPc.sleeping : TaskPc → Option Nat
  | .sleep (.coHold x) => some x
  | .sleep (.held x) => some x
  | _ => none

/-- A task that holds in a call does not run. -/
theorem TaskPc.not_active {pc : TaskPc} (h : pc.inCall = true) : pc.active = false := by
  unfold inCall at h
  split at h
  · rfl
  · exact absurd h (by simp)

/-- Where a task holds. -/
theorem TaskPc.hold_cases {pc : TaskPc} (h : pc.m_state = .HOLD) :
    pc.inCall = true ∨ ∃ x, pc = .sleep (.held x) := by
  unfold m_state at h
  split at h
  · exact absurd h (by simp)
  · exact .inl rfl
  · exact .inr ⟨_, rfl⟩
  · exact absurd h (by simp)
  · exact absurd h (by simp)

/-- The timer of a sleep has its task on the way to `co_hold` or there. -/
theorem TaskPc.sleeping_cases {pc : TaskPc} {x : Nat} (h : pc.sleeping = some x) :
    pc = .sleep (.coHold x) ∨ pc = .sleep (.held x) := by
  unfold sleeping at h
  split at h
  · exact .inl (by rw [Option.some.inj h])
  · exact .inr (by rw [Option.some.inj h])
  · exact absurd h (by simp)

/-- An entry belongs to the wait of its task. -/
structure Matches (s : State τ) (e : Waking τ) : Prop where
  call : (s.taskPc e.task).inCall = true → e.wait = s.waits e.task
  sleep : ∀ x, (s.taskPc e.task).sleeping = some x → e.wait = s.waits e.task ∧ e.cause = .timer x

/-- An entry that is still to be switched to. -/
def State.Entry (s : State τ) (e : Waking τ) : Prop :=
  e ∈ s.queues.m_newQueue ∨ e ∈ s.queues.m_runableQueue ∨
    s.queues.m_curTask = some e ∧ s.pc ≠ .running

variable [DecidableEq τ]

/-- **The processor that an event loop runs like**, and what the loop knows about its tasks. -/
structure Follows (s : State τ) (p : ProcessorTasks.State τ) : Prop where
  queues : p.queues = s.queues.map Waking.task
  pc : p.pc = s.pc
  started : p.m_started = s.m_started
  added : p.added = s.added
  ended : ∀ t, p.ended t = true ↔ s.taskPc t = .term
  /-- A sleeping task has its wake to come as long as its timer is to run. -/
  held : ∀ t x, s.taskPc t = .sleep (.held x) → p.held t = s.pending x
  coHold : ∀ t x, s.taskPc t = .sleep (.coHold x) → p.early = !s.pending x
  early : p.early = true → ∃ t x, s.taskPc t = .sleep (.coHold x)
  active : ∀ t, (s.taskPc t).active = true ↔ s.runs t
  begun : ∀ t, s.taskPc t ≠ .ready → s.added t = true
  /-- A timer that is to run belongs to a sleep that waits for it. -/
  timer : ∀ x y, s.sleepTimer x = some y → y.pc ≠ .finished →
    (s.taskPc y.task).sleeping = some x
  owner : ∀ t x, (s.taskPc t).sleeping = some x → ∃ y, s.sleepTimer x = some y ∧ y.task = t
  fresh : ∀ x, s.nextSleepTimer ≤ x → s.sleepTimer x = none
  entry : ∀ e, s.Entry e → Matches s e

omit [DecidableEq τ] in
theorem follows_initial : Follows (initial τ) ProcessorTasks.initial := by
  refine ⟨rfl, rfl, rfl, rfl, fun t => ⟨by rintro ⟨⟩, by rintro ⟨⟩⟩, nofun, nofun,
    by rintro ⟨⟩, fun t => ⟨by rintro ⟨⟩, ?_⟩,
    fun t ht => absurd rfl ht, nofun, nofun, fun _ _ => rfl, fun e he => ?_⟩
  · intro hr
    exact absurd hr.1 (by rintro ⟨⟩)
  · rcases he with he | he | ⟨he, -⟩
    · exact absurd he List.not_mem_nil
    · exact absurd he List.not_mem_nil
    · exact absurd he (by rintro ⟨⟩)

section
variable {s s' : State τ} {p p' : ProcessorTasks.State τ} {t u : τ} {pc : TaskPc} {x : Nat}

omit [DecidableEq τ] in
/-- One task runs at a time. -/
theorem runs_unique (ht : s.runs t) (hu : s.runs u) : t = u :=
  Option.some.inj (ht.2.symm.trans hu.2)

omit [DecidableEq τ] in
theorem pending_congr (h : s'.sleepTimer x = s.sleepTimer x) : s'.pending x = s.pending x := by
  rw [State.pending, h]; rfl

omit [DecidableEq τ] in
theorem Follows.curTask (h : Follows s p) :
    p.queues.m_curTask = s.queues.m_curTask.map Waking.task := by
  rw [h.queues]; rfl

/-- A task whose wake has not come early is in no queue while it runs. -/
theorem Follows.not_queued (h : Follows s p) (hp : ProcessorTasks.Inv p) (ht : s.runs t)
    (hold : ∀ x, s.taskPc t ≠ .sleep (.coHold x)) :
    p.early = false ∧ ProcessorTasks.inQueues p.queues t = 0 := by
  have hearly : p.early = false := by
    by_contra he
    obtain ⟨u, x, hu⟩ := h.early (by simpa using he)
    have hr : s.runs u := (h.active u).mp (by rw [hu]; rfl)
    exact hold x (runs_unique hr ht ▸ hu)
  have hcur : p.queues.m_curTask = some t := h.curTask.trans ht.2
  have hacc := hp.account t
  have hone : ProcessorTasks.isCurrent p.queues t = 1 := if_pos hcur
  have halive : p.isAlive t ≤ 1 := by
    unfold ProcessorTasks.State.isAlive; split <;> omega
  rw [hearly, if_neg Bool.false_ne_true, hone] at hacc
  exact ⟨hearly, by omega⟩

/-- An entry in a queue is counted. -/
theorem Follows.inQueues_pos (h : Follows s p) {e : Waking τ}
    (he : e ∈ s.queues.m_newQueue ∨ e ∈ s.queues.m_runableQueue) :
    0 < ProcessorTasks.inQueues p.queues e.task := by
  rw [h.queues]
  rcases he with he | he
  · have := List.count_pos_iff.mpr (List.mem_map_of_mem (f := Waking.task) he)
    exact Nat.add_pos_left this _
  · have := List.count_pos_iff.mpr (List.mem_map_of_mem (f := Waking.task) he)
    exact Nat.add_pos_right _ this

/-! ### Steps that move no entry -/

omit [DecidableEq τ] in
/-- A step on channels and timeouts. -/
theorem Follows.congr (h : Follows s p) (hqueues : s'.queues = s.queues) (hpc : s'.pc = s.pc)
    (hstarted : s'.m_started = s.m_started) (hadded : s'.added = s.added)
    (htask : s'.taskPc = s.taskPc) (hwaits : s'.waits = s.waits)
    (htimer : s'.sleepTimer = s.sleepTimer) (hnext : s'.nextSleepTimer = s.nextSleepTimer) :
    Follows s' p := by
  have hruns : ∀ t, s'.runs t ↔ s.runs t := fun t => by
    rw [State.runs, hpc, hqueues]; rfl
  have hpending : ∀ x, s'.pending x = s.pending x := fun x => by
    rw [State.pending, htimer]; rfl
  have hentry : ∀ e, s'.Entry e → s.Entry e := fun e he => by
    rwa [State.Entry, hpc, hqueues] at he
  refine ⟨hqueues ▸ h.queues, h.pc.trans hpc.symm, h.started.trans hstarted.symm,
    h.added.trans hadded.symm, ?_, ?_, ?_, ?_, ?_, ?_, ?_, ?_, ?_, fun e he => ?_⟩
  · rw [htask]; exact h.ended
  · intro t x ht
    rw [hpending]
    exact h.held t x (htask ▸ ht)
  · intro t x ht
    rw [hpending]
    exact h.coHold t x (htask ▸ ht)
  · rw [htask]; exact h.early
  · intro t
    rw [htask, hruns]
    exact h.active t
  · rw [htask, hadded]; exact h.begun
  · rw [htask, htimer]; exact h.timer
  · rw [htask, htimer]; exact h.owner
  · rw [hnext, htimer]; exact h.fresh
  · have hm := h.entry e (hentry e he)
    constructor
    · rw [htask, hwaits]; exact hm.call
    · rw [htask, hwaits]; exact hm.sleep

/-- **A step of task `t`.** While it is at work no other task runs, and what the step leaves to the
    other tasks is theirs as before. -/
theorem Follows.task (h : Follows s p) (t : τ) (pc : TaskPc)
    (hidle : ∀ u, u ≠ t → (s.taskPc u).active = false)
    (htask : s'.taskPc = Function.update s.taskPc t pc)
    (hqueues : p'.queues = s'.queues.map Waking.task) (hpc : p'.pc = s'.pc)
    (hstarted : p'.m_started = s'.m_started) (hadded : p'.added = s'.added)
    (hadded' : s'.added = s.added) (hbegun : s.added t = true)
    (hended : ∀ u, u ≠ t → p'.ended u = p.ended u) (hended' : p'.ended t = true ↔ pc = .term)
    (hheld : ∀ u, u ≠ t → p'.held u = p.held u)
    (hheld' : ∀ x, pc = .sleep (.held x) → p'.held t = s'.pending x)
    (hcoHold : ∀ x, pc = .sleep (.coHold x) → p'.early = !s'.pending x)
    (hearly : p'.early = true → ∃ x, pc = .sleep (.coHold x))
    (hruns : ∀ u, u ≠ t → ¬ s'.runs u) (hruns' : pc.active = true ↔ s'.runs t)
    (htimer : ∀ u x, u ≠ t → (s.taskPc u).sleeping = some x → s'.sleepTimer x = s.sleepTimer x)
    (htimer' : ∀ x y, s'.sleepTimer x = some y → y.pc ≠ .finished →
      s.sleepTimer x = some y ∧ y.task ≠ t ∨ y.task = t ∧ pc.sleeping = some x)
    (howner : ∀ x, pc.sleeping = some x → ∃ y, s'.sleepTimer x = some y ∧ y.task = t)
    (hfresh : ∀ x, s'.nextSleepTimer ≤ x → s'.sleepTimer x = none)
    (hwaits : ∀ u, u ≠ t → s'.waits u = s.waits u)
    (hentry : ∀ e, s'.Entry e → e.task ≠ t → s.Entry e)
    (hentry' : ∀ e, s'.Entry e → e.task = t → Matches s' e) : Follows s' p' := by
  have hself : s'.taskPc t = pc := by rw [htask, Function.update_self]
  have hother : ∀ u, u ≠ t → s'.taskPc u = s.taskPc u := fun u hu => by
    rw [htask, Function.update_of_ne hu]
  have hpending : ∀ u x, u ≠ t → (s.taskPc u).sleeping = some x → s'.pending x = s.pending x :=
    fun u x hu hx => by rw [State.pending, htimer u x hu hx]; rfl
  refine ⟨hqueues, hpc, hstarted, hadded, fun u => ?_, fun u x hu => ?_, fun u x hu => ?_,
    fun he => ?_, fun u => ?_, fun u hu => ?_, fun x y hy hrun => ?_, fun u x hu => ?_, hfresh,
    fun e he => ?_⟩
  · by_cases hu : u = t
    · rw [hu, hself]; exact hended'
    · rw [hother u hu, hended u hu]; exact h.ended u
  · by_cases hu' : u = t
    · rw [hu']
      exact hheld' x (hself.symm.trans (hu' ▸ hu))
    · rw [hother u hu'] at hu
      rw [hheld u hu', hpending u x hu' (by rw [hu]; rfl)]
      exact h.held u x hu
  · by_cases hu' : u = t
    · exact hcoHold x (hself.symm.trans (hu' ▸ hu))
    · have hno := hidle u hu'
      rw [← hother u hu', hu] at hno
      exact absurd hno (by rintro ⟨⟩)
  · obtain ⟨x, hx⟩ := hearly he
    exact ⟨t, x, hself.trans hx⟩
  · by_cases hu : u = t
    · rw [hu, hself]; exact hruns'
    · rw [hother u hu, hidle u hu]
      exact iff_of_false (by simp) (hruns u hu)
  · rw [hadded']
    by_cases hu' : u = t
    · exact hu' ▸ hbegun
    · exact h.begun u (hother u hu' ▸ hu)
  · rcases htimer' x y hy hrun with ⟨hy', hne⟩ | ⟨heq, hx⟩
    · rw [hother _ hne]
      exact h.timer x y hy' hrun
    · rw [heq, hself]
      exact hx
  · by_cases hu' : u = t
    · exact hu' ▸ howner x (hself ▸ hu' ▸ hu)
    · rw [hother u hu'] at hu
      rw [htimer u x hu' hu]
      exact h.owner u x hu
  · by_cases hu : e.task = t
    · exact hentry' e he hu
    · have hm := h.entry e (hentry e he hu)
      constructor
      · rw [hother _ hu, hwaits _ hu]; exact hm.call
      · rw [hother _ hu, hwaits _ hu]; exact hm.sleep

omit [DecidableEq τ] in
/-- While a task runs, the others do not. -/
theorem Follows.idle (h : Follows s p) (ht : s.runs t) (u : τ) (hu : u ≠ t) :
    (s.taskPc u).active = false ∧ ¬ s.runs u := by
  have hno : ¬ s.runs u := fun hr => hu (runs_unique hr ht)
  refine ⟨?_, hno⟩
  by_contra ha
  exact hno ((h.active u).mp (by simpa using ha))

omit [DecidableEq τ] in
/-- A timer that is to run, of a task that does not sleep, belongs to another one. -/
theorem Follows.timer_ne (h : Follows s p) (hold : (s.taskPc t).sleeping = none)
    {y : SleepTimer τ} (hy : s.sleepTimer x = some y) (hrun : y.pc ≠ .finished) : y.task ≠ t := by
  intro heq
  have hsl := h.timer x y hy hrun
  rw [heq, hold] at hsl
  exact absurd hsl (by simp)

omit [DecidableEq τ] in
/-- An entry of a task that neither holds in a call nor sleeps. -/
theorem matches_of_active {e : Waking τ} (hcall : (s.taskPc e.task).inCall = false)
    (hsleep : (s.taskPc e.task).sleeping = none) : Matches s e := by
  constructor
  · intro hc
    rw [hcall] at hc
    exact absurd hc (by simp)
  · intro x hx
    rw [hsleep] at hx
    exact absurd hx (by simp)

/-- **The running task goes on**, outside a sleep. -/
theorem Follows.move (h : Follows s p) (hp : ProcessorTasks.Inv p) (ht : s.runs t)
    (hold : (s.taskPc t).sleeping = none) (pc : TaskPc) (hactive : pc.active = true)
    (hsleep : pc.sleeping = none) (hqueues : s'.queues = s.queues)
    (hpc : s'.pc = s.pc) (hstarted : s'.m_started = s.m_started) (hadded : s'.added = s.added)
    (htask : s'.taskPc = Function.update s.taskPc t pc)
    (hwaits : ∀ u, u ≠ t → s'.waits u = s.waits u) (htimer : s'.sleepTimer = s.sleepTimer)
    (hnext : s'.nextSleepTimer = s.nextSleepTimer) : Follows s' p := by
  have hruns : ∀ u, s'.runs u ↔ s.runs u := fun u => by rw [State.runs, hpc, hqueues]; rfl
  have hself : s'.taskPc t = pc := by rw [htask, Function.update_self]
  have hwas : (s.taskPc t).active = true := (h.active t).mpr ht
  have hterm : ∀ q : TaskPc, q.active = true → q ≠ .term ∧ q ≠ .ready := fun q hq =>
    ⟨fun heq => by rw [heq] at hq; exact absurd hq (by rintro ⟨⟩),
      fun heq => by rw [heq] at hq; exact absurd hq (by rintro ⟨⟩)⟩
  obtain ⟨hearly, -⟩ :=
    h.not_queued hp ht fun x hx => by rw [hx] at hold; exact absurd hold (by rintro ⟨⟩)
  refine h.task t pc (fun u hu => (h.idle ht u hu).1) htask (hqueues ▸ h.queues)
    (h.pc.trans hpc.symm) (h.started.trans hstarted.symm) (h.added.trans hadded.symm) hadded
    (h.begun t (hterm _ hwas).2) (fun _ _ => rfl) ?_ (fun _ _ => rfl) (fun x hx => ?_)
    (fun x hx => ?_) (fun he => absurd (hearly.symm.trans he) (by simp))
    (fun u hu => (hruns u).not.mpr (h.idle ht u hu).2) ?_ (fun _ _ _ _ => by rw [htimer])
    (fun x y hy hrun => ?_) (fun x hx => ?_) ?_ hwaits (fun e he _ => ?_) fun e _ he => ?_
  · rw [h.ended]
    exact iff_of_false (hterm _ hwas).1 (hterm _ hactive).1
  · rw [hx] at hsleep; exact absurd hsleep (by rintro ⟨⟩)
  · rw [hx] at hsleep; exact absurd hsleep (by rintro ⟨⟩)
  · rw [hruns]; exact iff_of_true hactive ht
  · rw [htimer] at hy
    exact .inl ⟨hy, h.timer_ne hold hy hrun⟩
  · rw [hsleep] at hx; exact absurd hx (by simp)
  · rw [hnext, htimer]; exact h.fresh
  · rwa [State.Entry, hpc, hqueues] at he
  · refine matches_of_active ?_ (by rw [he, hself, hsleep])
    rw [he, hself]
    by_contra hc
    exact absurd (hactive.symm.trans (TaskPc.not_active (by simpa using hc))) (by simp)

/-- **A sleep adds its timer.** -/
theorem Follows.addTimer (h : Follows s p) (hp : ProcessorTasks.Inv p) (ht : s.runs t)
    {ms ms' : UInt64} (hpc : s.taskPc t = .sleep (.addTimer ms)) : Follows { s with
      sleepTimer := Function.update s.sleepTimer s.nextSleepTimer (some ⟨ms', t, .armed⟩)
      nextSleepTimer := s.nextSleepTimer + 1
      taskPc := Function.update s.taskPc t (.sleep (.coHold s.nextSleepTimer))
      waits := Function.update s.waits t (s.waits t + 1) } p := by
  obtain ⟨hearly, hnone⟩ := h.not_queued hp ht fun x hx => by
    rw [hx] at hpc; exact absurd hpc (by simp)
  have hold : (s.taskPc t).sleeping = none := by rw [hpc]; rfl
  have hnew : Function.update s.sleepTimer s.nextSleepTimer (some ⟨ms', t, .armed⟩)
      s.nextSleepTimer = some ⟨ms', t, .armed⟩ := Function.update_self _ _ _
  have hsame : ∀ x, x ≠ s.nextSleepTimer →
      Function.update s.sleepTimer s.nextSleepTimer (some ⟨ms', t, .armed⟩) x = s.sleepTimer x :=
    fun x hx => Function.update_of_ne hx _ _
  refine h.task t _ (fun u hu => (h.idle ht u hu).1) rfl h.queues h.pc h.started h.added rfl
    (h.begun t (by rw [hpc]; simp)) (fun _ _ => rfl) ?_ (fun _ _ => rfl) (by simp) (fun x hx => ?_)
    (fun he => absurd (hearly.symm.trans he) (by simp)) (fun u hu => (h.idle ht u hu).2)
    (iff_of_true rfl ht) (fun u x _ hx => ?_) (fun x y hy hrun => ?_) (fun x hx => ?_)
    (fun x hx => ?_) (fun u hu => Function.update_of_ne hu _ _) (fun e he _ => he)
    fun e he het => ?_
  · rw [h.ended, hpc]
    exact iff_of_false (by simp) (by simp)
  · -- it has just been armed
    have hx : s.nextSleepTimer = x := by simpa using hx
    rw [hearly, State.pending, ← hx]
    dsimp only
    rw [hnew]
    rfl
  · -- the other sleeps have other timers
    apply hsame x
    intro heq
    obtain ⟨y, hy, -⟩ := h.owner u x hx
    rw [h.fresh x heq.ge] at hy
    exact absurd hy (by simp)
  · dsimp only at hy
    by_cases hx : x = s.nextSleepTimer
    · rw [hx, hnew] at hy
      rw [← Option.some.inj hy, hx]
      exact .inr ⟨rfl, rfl⟩
    · rw [hsame x hx] at hy
      exact .inl ⟨hy, h.timer_ne hold hy hrun⟩
  · rw [← Option.some.inj hx]
    exact ⟨_, hnew, rfl⟩
  · exact (hsame x (Nat.ne_of_gt hx)).trans (h.fresh x (Nat.le_of_succ_le hx))
  · -- it is in no queue
    rcases he with he | he | ⟨-, hne⟩
    · have hpos := h.inQueues_pos (.inl he)
      rw [het, hnone] at hpos
      exact absurd hpos (Nat.lt_irrefl 0)
    · have hpos := h.inQueues_pos (.inr he)
      rw [het, hnone] at hpos
      exact absurd hpos (Nat.lt_irrefl 0)
    · exact absurd ht.1 hne

/-! ### Steps of the loop -/

/-- What a running task's swap-out leaves to the other tasks. -/
theorem swapped_other (p : ProcessorTasks.State τ) {out : TaskState} (hu : u ≠ t) :
    (p.swapped t out).ended u = p.ended u ∧ (p.swapped t out).held u = p.held u := by
  cases out with
  | READY => exact ⟨rfl, rfl⟩
  | HOLD => exact ⟨rfl, Function.update_of_ne hu _ _⟩
  | _ => exact ⟨Function.update_of_ne hu _ _, rfl⟩

theorem swapped_early (p : ProcessorTasks.State τ) {out : TaskState}
    (hout : p.early = true → out = .HOLD) : (p.swapped t out).early = false := by
  cases hearly : p.early with
  | true => rw [hout hearly]; rfl
  | false => cases out <;> first | exact hearly | rfl

theorem swapped_same (p : ProcessorTasks.State τ) (out : TaskState) :
    (p.swapped t out).m_started = p.m_started ∧ (p.swapped t out).added = p.added := by
  cases out <;> exact ⟨rfl, rfl⟩

/-- What the swap-out of a running task does. -/
theorem swapOut_eq {e : Waking τ} {out : TaskState} (hcur : s.queues.m_curTask = some e) :
    s.swapOut t pc out = some { s.goto t pc with
      pc := .dequeue false, queues := s.queues.swapOut e out } := by
  rw [State.swapOut, runStep, hcur]; rfl

/-- **The running task swaps out.** -/
theorem Follows.swapOut (h : Follows s p) {e : Waking τ} {out : TaskState}
    (hcur : s.queues.m_curTask = some e) (hrun : s.pc = .running)
    (hs : s.swapOut e.task pc out = some s') (hactive : pc.active = false)
    (hout : p.early = true → out = .HOLD)
    (hended : (p.swapped e.task out).ended e.task = true ↔ pc = .term)
    (hheld : ∀ x, pc = .sleep (.held x) → (p.swapped e.task out).held e.task = s.pending x)
    (hsleep : (s.taskPc e.task).sleeping = pc.sleeping)
    (hentry : ∀ e', s'.Entry e' → e'.task = e.task → Matches s' e') :
    ∃ b p', ProcessorTasks.step p b = some p' ∧ Follows s' p' := by
  rw [swapOut_eq hcur, Option.some.injEq] at hs
  have ht : s.runs e.task := ⟨hrun, by rw [hcur]; rfl⟩
  have hcur' : p.queues.m_curTask = some e.task := h.curTask.trans ht.2
  have hstep : ProcessorTasks.step p (.run out) = some { p.swapped e.task out with
      pc := .dequeue false, queues := p.queues.swapOut e.task out } := by
    show ProcessorTasks.runLoop p out = _
    have hno : ¬ (p.early = true ∧ out ≠ .HOLD) := fun hn => hn.2 (hout hn.1)
    rw [ProcessorTasks.runLoop, h.pc, hrun]
    simp only [if_neg hno, hcur', Option.bind_some, runStep, Option.map_some]
  refine ⟨_, _, hstep, ?_⟩
  have hwas : (s.taskPc e.task).active = true := (h.active _).mpr ht
  have hruns : ∀ u, ¬ s'.runs u := fun u hu => by rw [← hs] at hu; exact absurd hu.1 (by simp)
  have hnot : pc.active = true ↔ s'.runs e.task := by
    rw [hactive]; exact iff_of_false (by simp) (hruns _)
  rw [← hs] at hruns hnot hentry ⊢
  refine h.task e.task pc (fun u hu => (h.idle ht u hu).1) rfl ?_ rfl
    ((swapped_same p out).1.trans h.started) ((swapped_same p out).2.trans h.added) rfl
    (h.begun _ fun heq => by rw [heq] at hwas; exact absurd hwas (by rintro ⟨⟩))
    (fun u hu => (swapped_other p hu).1) hended (fun u hu => (swapped_other p hu).2) hheld
    (fun x hx => by rw [hx] at hactive; exact absurd hactive (by rintro ⟨⟩))
    (fun he => absurd ((swapped_early p hout).symm.trans he) (by simp)) (fun u _ => hruns u) hnot
    (fun _ _ _ _ => rfl) (fun x y hy hpend => ?_) (fun x hx => ?_) h.fresh (fun _ _ => rfl)
    (fun e' he' hne => ?_) hentry
  · show p.queues.swapOut e.task out = (s.queues.swapOut e out).map Waking.task
    rw [Queues.map_swapOut, h.queues]
  · by_cases heq : y.task = e.task
    · refine .inr ⟨heq, ?_⟩
      rw [← hsleep, ← heq]
      exact h.timer x y hy hpend
    · exact .inl ⟨hy, heq⟩
  · rw [← hsleep] at hx
    exact h.owner _ x hx
  · rcases he' with he' | he' | ⟨he', -⟩
    · exact .inl (by simpa using he')
    · right; left
      cases out with
      | READY =>
        rcases List.mem_append.mp he' with he' | he'
        · exact he'
        · exact absurd (by rw [List.mem_singleton.mp he']) hne
      | _ => exact he'
    · cases out <;> exact absurd he' (by rintro ⟨⟩)

/-- What a task goes on with when the loop switches to it. -/
theorem swapInPc_active {pc' : TaskPc} (h : swapInPc pc = some pc') :
    pc'.active = true ∧ pc'.inCall = false ∧ pc'.sleeping = none ∧ pc.active = false ∧
      pc ≠ .term := by
  unfold swapInPc at h
  split at h <;> cases h
  · exact ⟨rfl, rfl, rfl, rfl, by simp⟩
  · exact ⟨rfl, rfl, rfl, rfl, by simp⟩
  · exact ⟨rfl, rfl, rfl, rfl, by simp⟩

omit [DecidableEq τ] in
/-- A step that moves no task while none runs. -/
theorem Follows.stay (h : Follows s p) {loopPc : RunPc Unit} {queues : Queues (Waking τ)}
    {moved : List τ} (hrun : s.pc ≠ .running) (hpc : loopPc ≠ .running)
    (hhas : ∀ e, queues.Has e → s.queues.Has e) :
    Follows { s with pc := loopPc, queues := queues }
      { p with pc := loopPc, queues := queues.map Waking.task, moved := moved } := by
  refine ⟨rfl, rfl, h.started, h.added, h.ended, h.held, h.coHold, h.early, fun u => ?_, h.begun,
    h.timer, h.owner, h.fresh, fun e he => ?_⟩
  · exact (h.active u).trans (iff_of_false (fun hr => hrun hr.1) fun hr => hpc hr.1)
  · have hhas' : queues.Has e := by
      rcases he with he | he | ⟨he, -⟩
      · exact .inl he
      · exact .inr (.inl he)
      · exact .inr (.inr he)
    have hm := h.entry e ?_
    · exact ⟨hm.call, hm.sleep⟩
    · rcases hhas e hhas' with he | he | he
      · exact .inl he
      · exact .inr (.inl he)
      · exact .inr (.inr ⟨he, hrun⟩)

/-- **The loop goes on** while no task runs. -/
theorem Follows.loop (h : Follows s p) (hp : ProcessorTasks.Inv p) (hs : loopStep s = some s') :
    ∃ b p', ProcessorTasks.step p b = some p' ∧ Follows s' p' := by
  unfold loopStep at hs
  rw [Option.ite_none_left_eq_some] at hs
  obtain ⟨hrun, hs⟩ := hs
  obtain ⟨⟨loopPc, queues⟩, hloop, hs⟩ := Option.bind_eq_some_iff.mp hs
  have hrun' : p.pc ≠ .running := h.pc ▸ hrun
  have hloop' : runStep () (!p.m_started) .READY p.pc p.queues =
      some (loopPc, queues.map Waking.task) := by
    rw [h.pc, h.queues, h.started, runStep_map, hloop]; rfl
  have hstep : ProcessorTasks.runLoop p .READY = _ := ProcessorTasks.runLoop_of_ne hrun'
  rw [hloop', Option.map_some] at hstep
  have hruns : ∀ u, ¬ s.runs u := fun u hu => hrun hu.1
  have hidle : ∀ u, (s.taskPc u).active = false := fun u => by
    by_contra ha
    exact hruns u ((h.active u).mp (by simpa using ha))
  have hearly : p.early = false := hp.early_eq_false hrun'
  refine ⟨.run .READY, _, hstep, ?_⟩
  dsimp only at hs
  split at hs
  · -- the loop switches to the current task
    rename_i e hcur
    obtain ⟨pc', hpc', hs'⟩ := Option.map_eq_some_iff.mp hs
    obtain ⟨hinner, rfl⟩ := runStep_inner hloop
    obtain ⟨hactive, hcall, hsleep, hwas, hterm⟩ := swapInPc_active hpc'
    have hcur' : p.queues.m_curTask = some e.task := by rw [h.curTask, hcur]; rfl
    obtain ⟨hadded, hended, hheld⟩ := hp.current _ hcur'
    have hself : s'.taskPc e.task = pc' := by rw [← hs']; exact Function.update_self _ _ _
    have hnot : ∀ x, pc'.sleeping ≠ some x := fun x hx => by
      rw [hsleep] at hx; exact absurd hx (by simp)
    rw [← hs'] at hself ⊢
    refine h.task e.task pc' (fun u _ => hidle u) rfl rfl rfl h.started h.added rfl
      (h.added ▸ hadded) (fun _ _ => rfl) ?_ (fun _ _ => rfl)
      (fun x hx => absurd (by rw [hx]; rfl) (hnot x))
      (fun x hx => absurd (by rw [hx]; rfl) (hnot x))
      (fun he => absurd (hearly.symm.trans he) (by simp)) (fun u hu hr => ?_) ?_
      (fun _ _ _ _ => rfl)
      (fun x y hy hpend => .inl ⟨hy, fun heq => ?_⟩) (fun x hx => absurd hx (hnot x)) h.fresh
      (fun _ _ => rfl) (fun e' he' _ => ?_) fun e' _ he' => ?_
    · rw [hended]
      exact iff_of_false (by simp) fun heq => by
        rw [heq] at hactive; exact absurd hactive (by rintro ⟨⟩)
    · exact hu (Option.some.inj (hr.2.symm.trans (by rw [hcur]; rfl)))
    · exact iff_of_true hactive ⟨rfl, by rw [hcur]; rfl⟩
    · -- a task that is current has been woken
      have hy : s.sleepTimer x = some y := hy
      have hsl := h.timer x y hy hpend
      rw [heq] at hsl
      have hheld' : s.taskPc e.task = .sleep (.held x) := by
        cases hpc : s.taskPc e.task with
        | sleep q =>
          rw [hpc] at hsl hwas
          cases q with
          | held z => rw [Option.some.inj hsl]
          | _ => exact absurd hwas (by rintro ⟨⟩)
        | _ => rw [hpc] at hsl; exact absurd hsl (by rintro ⟨⟩)
      have hp' := h.held _ x hheld'
      rw [hheld, State.pending, hy] at hp'
      exact hpend (by simpa using hp'.symm)
    · rcases he' with he' | he' | ⟨-, hne⟩
      · exact .inl he'
      · exact .inr (.inl he')
      · exact absurd rfl hne
    · exact matches_of_active (by rw [he', hself, hcall]) (by rw [he', hself, hsleep])
  · -- no task moves
    rename_i loopPc _ _ hnone
    rw [Option.some.injEq] at hs
    have hpc : loopPc ≠ .running := by
      intro heq
      rw [heq] at hloop hnone
      obtain ⟨e, he⟩ := Option.isSome_iff_exists.mp (runStep_running hloop)
      exact hnone e rfl he
    rw [← hs]
    exact h.stay hrun hpc fun e he => runStep_has hrun hloop he

/-! ### Wakes -/

omit [DecidableEq τ] in
/-- **A task is woken**, or added. -/
theorem Follows.wake (h : Follows s p) (t : τ) (cause : Cause)
    (hqueues : s'.queues = s.queues.enqueueNew ⟨t, cause, s.waits t⟩) (hpc : s'.pc = s.pc)
    (hstarted : s'.m_started = s.m_started) (htask : s'.taskPc = s.taskPc)
    (hwaits : s'.waits = s.waits) (hnext : s'.nextSleepTimer = s.nextSleepTimer)
    (hqueues' : p'.queues = p.queues.enqueueNew t) (hpc' : p'.pc = p.pc)
    (hstarted' : p'.m_started = p.m_started) (hended : p'.ended = p.ended)
    (hadded : p'.added = s'.added) (hbegun : ∀ u, s.added u = true → s'.added u = true)
    (hheld : ∀ u x, s.taskPc u = .sleep (.held x) → p'.held u = s'.pending x)
    (hcoHold : ∀ u x, s.taskPc u = .sleep (.coHold x) → p'.early = !s'.pending x)
    (hearly : p'.early = true → ∃ u x, s.taskPc u = .sleep (.coHold x))
    (htimer : ∀ x y, s'.sleepTimer x = some y → y.pc ≠ .finished → s.sleepTimer x = some y)
    (howner : ∀ x y, s.sleepTimer x = some y → ∃ y', s'.sleepTimer x = some y' ∧ y'.task = y.task)
    (hfresh : ∀ x, s.sleepTimer x = none → s'.sleepTimer x = none)
    (hmatch : Matches s ⟨t, cause, s.waits t⟩) : Follows s' p' := by
  have hruns : ∀ u, s'.runs u ↔ s.runs u := fun u => by rw [State.runs, hpc, hqueues]; rfl
  refine ⟨?_, (hpc'.trans h.pc).trans hpc.symm, (hstarted'.trans h.started).trans hstarted.symm,
    hadded, ?_, ?_, ?_, ?_, fun u => ?_, fun u hu => hbegun u (h.begun u (htask ▸ hu)),
    fun x y hy hrun => ?_, fun u x hu => ?_, fun x hx => hfresh x (h.fresh x (hnext ▸ hx)),
    fun e he => ?_⟩
  · rw [hqueues, hqueues', h.queues, Queues.map_enqueueNew]
  · rw [hended, htask]; exact h.ended
  · rw [htask]; exact hheld
  · rw [htask]; exact hcoHold
  · rw [htask]; exact hearly
  · rw [htask, hruns]; exact h.active u
  · rw [htask]
    exact h.timer x y (htimer x y hy hrun) hrun
  · rw [htask] at hu
    obtain ⟨y, hy, hyt⟩ := h.owner u x hu
    obtain ⟨y', hy', heq⟩ := howner x y hy
    exact ⟨y', hy', heq.trans hyt⟩
  · have hm : Matches s e := by
      rw [State.Entry, hqueues, hpc] at he
      rcases he with he | he | he
      · rcases List.mem_append.mp he with he | he
        · exact h.entry e (.inl he)
        · rw [List.mem_singleton.mp he]
          exact hmatch
      · exact h.entry e (.inr (.inl he))
      · exact h.entry e (.inr (.inr he))
    constructor
    · rw [htask, hwaits]; exact hm.call
    · rw [htask, hwaits]; exact hm.sleep

/-! ### The steps -/

/-- A step that the processor takes too, or does not see. -/
def Followed (s' : State τ) (p : ProcessorTasks.State τ) : Prop :=
  Follows s' p ∨ ∃ b p', ProcessorTasks.step p b = some p' ∧ Follows s' p'

/-- Every step of `do_io` and `connect`. -/
theorem followed_callStep (h : Follows s p) (hp : ProcessorTasks.Inv p) {c : Hook.Call}
    {q : Hook.CallPc} {r : Hook.SysResult} (ht : s.runs t) (hpc : s.taskPc t = .call c q)
    (hs : callStep s t c r q = some s') : Followed s' p := by
  have hold : (s.taskPc t).sleeping = none := by rw [hpc]; rfl
  have hgoto : ∀ pc : TaskPc, pc.active = true → pc.sleeping = none → Follows (s.goto t pc) p :=
    fun pc ha hsl => h.move hp ht hold pc ha hsl rfl rfl rfl rfl rfl (fun _ _ => rfl) rfl rfl
  have hret : ∀ r, Follows (s.ret t r) p := fun r =>
    h.move hp ht hold .exec rfl rfl rfl rfl rfl rfl rfl (fun _ _ => rfl) rfl rfl
  have hwait : ∀ ms, Follows (wait s t c ms) p := fun ms => hgoto _ (by split <;> rfl) rfl
  cases q with
  | fun_ =>
    simp only [callStep] at hs
    split at hs <;> rw [← Option.some.inj hs]
    · exact .inl h
    · exact .inl (hwait _)
    · exact .inl (hwait _)
    · exact .inl (hret _)
  | addTimer ms =>
    rw [← Option.some.inj hs]
    exact .inl (h.move hp ht hold (.call c (.addEvent (some s.nextTimer))) rfl rfl rfl rfl rfl
      rfl rfl (fun _ _ => rfl) rfl rfl)
  | addEvent timer =>
    rw [← Option.some.inj hs]
    exact .inl (h.move hp ht hold (.call c (.updateChannel timer)) rfl rfl rfl rfl rfl rfl rfl
      (fun _ hu => Function.update_of_ne hu _ _) rfl rfl)
  | updateChannel timer =>
    obtain ⟨s₁, hu, hs'⟩ := Option.map_eq_some_iff.mp hs
    obtain ⟨⟨m, info⟩, -, hs₁⟩ := Option.map_eq_some_iff.mp hu
    rw [← hs', ← hs₁]
    exact .inl (h.move hp ht hold (.call c (.coHold timer)) rfl rfl rfl rfl rfl rfl rfl
      (fun _ _ => rfl) rfl rfl)
  | coHold timer =>
    obtain ⟨e, hcur, he⟩ := Option.map_eq_some_iff.mp ht.2
    obtain ⟨hearly, hnone⟩ := h.not_queued hp ht fun x hx => by
      rw [hx] at hpc; exact absurd hpc (by simp)
    rw [← he] at hs hold hpc
    refine .inr (h.swapOut hcur ht.1 hs rfl (fun _ => rfl) ?_ (by simp) hold fun e' he' heq => ?_)
    · have hended : p.ended e.task = true ↔ s.taskPc e.task = .term := h.ended e.task
      rw [hpc] at hended
      exact hended.trans (iff_of_false (by simp) (by simp))
    · -- no entry of it is left
      have hs := Option.some.inj ((swapOut_eq hcur).symm.trans hs)
      have hpos : 0 < ProcessorTasks.inQueues p.queues e'.task := by
        apply h.inQueues_pos
        rw [← hs] at he'
        rcases he' with he' | he' | ⟨he', -⟩
        · exact .inl he'
        · exact .inr he'
        · exact absurd he' (by rintro ⟨⟩)
      rw [heq, he, hnone] at hpos
      exact absurd hpos (Nat.lt_irrefl 0)
  | held timer => exact absurd hs (by rintro ⟨⟩)
  | cancel timer =>
    cases timer with
    | none =>
      rw [← Option.some.inj hs]
      exact .inl (hgoto _ rfl rfl)
    | some x =>
      rw [← Option.some.inj hs]
      exact .inl (h.move hp ht hold (.call c (.expired (some x))) rfl rfl rfl rfl rfl rfl rfl
        (fun _ _ => rfl) rfl rfl)
  | expired timer =>
    simp only [callStep] at hs
    split at hs
    · rw [← Option.some.inj hs]
      exact .inl (hret _)
    · split at hs <;> rw [← Option.some.inj hs] <;> exact .inl (hgoto _ rfl rfl)
  | getsockopt =>
    rw [← Option.some.inj hs]
    exact .inl (hret _)

/-- Every step of a hooked sleep. -/
theorem followed_sleepStep (h : Follows s p) (hp : ProcessorTasks.Inv p) {q : SleepPc}
    (ht : s.runs t) (hpc : s.taskPc t = .sleep q) (hs : sleepStep s t q = some s') :
    Followed s' p := by
  cases q with
  | addTimer ms =>
    rw [← Option.some.inj hs]
    exact .inl (h.addTimer hp ht hpc)
  | coHold x =>
    obtain ⟨e, hcur, he⟩ := Option.map_eq_some_iff.mp ht.2
    rw [← he] at hs hpc
    refine .inr (h.swapOut hcur ht.1 hs rfl (fun _ => rfl) ?_ (fun z hz => ?_) (by rw [hpc]; rfl)
      fun e' he' heq => ?_)
    · have hended : p.ended e.task = true ↔ s.taskPc e.task = .term := h.ended e.task
      rw [hpc] at hended
      exact hended.trans (iff_of_false (by simp) (by simp))
    · -- its wake is to come unless it came early
      have hx : x = z := by simpa using hz
      show Function.update p.held e.task (!p.early) e.task = s.pending z
      rw [Function.update_self, h.coHold _ x hpc, Bool.not_not, hx]
    · have hs := Option.some.inj ((swapOut_eq hcur).symm.trans hs)
      rw [← hs] at he' ⊢
      have hm : Matches s e' := by
        apply h.entry e'
        rcases he' with he' | he' | ⟨he', -⟩
        · exact .inl he'
        · exact .inr (.inl he')
        · exact absurd he' (by rintro ⟨⟩)
      have hself :
          Function.update s.taskPc e.task (.sleep (.held x)) e'.task = .sleep (.held x) := by
        rw [heq, Function.update_self]
      constructor
      · intro hc
        exact absurd ((congrArg TaskPc.inCall hself).symm.trans hc) (by rintro ⟨⟩)
      · intro z hz
        have hz : some x = some z := (congrArg TaskPc.sleeping hself).symm.trans hz
        exact hm.sleep z (by rw [heq, hpc]; exact hz)
  | held x => exact absurd hs (by rintro ⟨⟩)
  | resumed =>
    rw [← Option.some.inj hs]
    exact .inl (h.move hp ht (by rw [hpc]; rfl) .exec rfl rfl rfl rfl rfl rfl rfl
      (fun _ _ => rfl) rfl rfl)

omit [DecidableEq τ] in
/-- Every step of the callback of a timeout. -/
theorem follows_callbackStep (h : Follows s p) {q : Hook.TimeoutPc}
    (hs : callbackStep s x q = some s') : Follows s' p := by
  cases q with
  | cancelEvent =>
    rw [← Option.some.inj hs]
    exact h.congr rfl rfl rfl rfl rfl rfl rfl rfl
  | updateChannel =>
    obtain ⟨s₁, hu, hs'⟩ := Option.map_eq_some_iff.mp hs
    obtain ⟨⟨m, info⟩, -, hs₁⟩ := Option.map_eq_some_iff.mp hu
    rw [← hs', ← hs₁]
    exact h.congr rfl rfl rfl rfl rfl rfl rfl rfl
  | setExpired =>
    rw [← Option.some.inj hs]
    exact h.congr rfl rfl rfl rfl rfl rfl rfl rfl
  | _ => exact absurd hs (by rintro ⟨⟩)

omit [DecidableEq τ] in
/-- Setting an option of a descriptor. -/
theorem follows_setOption (h : Follows s p) {fd : Nat} (set : FdInfo τ → FdInfo τ)
    (hs : s.setOption fd set = some s') : Follows s' p := by
  obtain ⟨i, -, hs⟩ := Option.map_eq_some_iff.mp hs
  rw [← hs]
  exact h.congr rfl rfl rfl rfl rfl rfl rfl rfl

/-- **An event** wakes a task that waits for its one wake. -/
theorem followed_trigger (h : Follows s p) (hp : ProcessorTasks.Inv p) {channel : Nat}
    (hidle : s.pc = .idle ()) (hcall : (s.taskPc t).inCall = true) (hqueued : ¬ s.Queued t) :
    Followed (s.wake t (.trigger channel)) p := by
  have hpc : (s.taskPc t).sleeping = none ∧ s.taskPc t ≠ .ready ∧ s.taskPc t ≠ .term := by
    unfold TaskPc.inCall at hcall
    split at hcall
    · rename_i heq
      rw [heq]
      exact ⟨rfl, by simp, by simp⟩
    · exact absurd hcall (by simp)
  obtain ⟨hsleep, hready, hterm⟩ := hpc
  have hnone : ProcessorTasks.inQueues p.queues t = 0 := by
    rw [h.queues]
    exact Nat.add_eq_zero_iff.mpr ⟨List.count_eq_zero.mpr fun hm => hqueued (.inl hm),
      List.count_eq_zero.mpr fun hm => hqueued (.inr hm)⟩
  -- it has held, and is nowhere else
  have hheld : p.held t = true := by
    have hplaced := hp.conserved.placed t (by rw [h.added]; exact h.begun t hready) (by
      by_contra he
      exact hterm ((h.ended t).mp (by simpa using he)))
    rcases hplaced with ⟨hcur, -, -⟩ | ⟨-, -, hone⟩ | ⟨-, hheld, -⟩
    · have hpc := hp.pc (by rw [hcur]; simp)
      rw [h.pc, hidle] at hpc
      simp at hpc
    · rw [hnone] at hone; exact absurd hone (by simp)
    · exact hheld
  refine .inr ⟨.wake t, _, by rw [ProcessorTasks.step, if_pos hheld], ?_⟩
  refine h.wake t (.trigger channel) rfl rfl rfl rfl rfl rfl rfl rfl rfl rfl h.added (fun _ => id)
    (fun u x hu => ?_) h.coHold h.early (fun _ _ hy _ => hy) (fun _ y hy => ⟨y, hy, rfl⟩)
    (fun _ => id) ⟨fun _ => rfl, fun x hx => ?_⟩
  · have hne : u ≠ t := fun heq => by
      rw [← heq, hu] at hsleep; exact absurd hsleep (by rintro ⟨⟩)
    exact (Function.update_of_ne hne _ _).trans (h.held u x hu)
  · have hx : (s.taskPc t).sleeping = some x := hx
    rw [hsleep] at hx; exact absurd hx (by simp)

omit [DecidableEq τ] in
/-- A timer that moves on belongs to the same task. -/
theorem sleepTimer_owner {y y' : SleepTimer τ} (hy : s.sleepTimer x = some y)
    (htask : y'.task = y.task) (z : Nat) (w : SleepTimer τ) (hw : s.sleepTimer z = some w) :
    ∃ w', Function.update s.sleepTimer x (some y') z = some w' ∧ w'.task = w.task := by
  by_cases hz : z = x
  · rw [hz, Function.update_self]
    rw [hz, hy] at hw
    exact ⟨_, rfl, by rw [htask, Option.some.inj hw]⟩
  · exact ⟨w, (Function.update_of_ne hz _ _).trans hw, rfl⟩

omit [DecidableEq τ] in
/-- A timer that moves on is not a new one. -/
theorem sleepTimer_fresh {y y' : SleepTimer τ} (hy : s.sleepTimer x = some y) (z : Nat)
    (hz : s.sleepTimer z = none) : Function.update s.sleepTimer x (some y') z = none := by
  refine (Function.update_of_ne (fun heq => ?_) _ _).trans hz
  rw [heq, hy] at hz
  exact absurd hz (by simp)

omit [DecidableEq τ] in
/-- The other timers that are still to run. -/
theorem sleepTimer_running {y : SleepTimer τ} (z : Nat) (w : SleepTimer τ)
    (hw : Function.update s.sleepTimer x (some { y with pc := .finished }) z = some w)
    (hrun : w.pc ≠ .finished) : s.sleepTimer z = some w := by
  by_cases hz : z = x
  · rw [hz, Function.update_self] at hw
    exact absurd (by rw [← Option.some.inj hw]) hrun
  · exact (Function.update_of_ne hz _ _).symm.trans hw

omit [DecidableEq τ] in
/-- **The timer of a sleep expires**: its callback is still to run. -/
theorem follows_armed (h : Follows s p) {y : SleepTimer τ} (hy : s.sleepTimer x = some y)
    (hpc : y.pc = .armed) :
    Follows { s with
      sleepTimer := Function.update s.sleepTimer x (some { y with pc := .wake }) } p := by
  have hpending : ∀ z, State.pending { s with
      sleepTimer := Function.update s.sleepTimer x (some { y with pc := .wake }) } z =
        s.pending z := by
    intro z
    by_cases hz : z = x
    · simp only [State.pending, hz, hy, Function.update_self, Option.any_some, hpc]
      rfl
    · exact pending_congr (Function.update_of_ne hz _ _)
  refine ⟨h.queues, h.pc, h.started, h.added, h.ended, fun u z hu => ?_, fun u z hu => ?_,
    h.early, h.active, h.begun, fun z y' hy' hrun => ?_, fun u z hu => ?_,
    fun z hz => sleepTimer_fresh hy z (h.fresh z hz),
    fun e he => ⟨(h.entry e he).call, (h.entry e he).sleep⟩⟩
  · rw [hpending]; exact h.held u z hu
  · rw [hpending]; exact h.coHold u z hu
  · dsimp only at hy'
    by_cases hz : z = x
    · rw [hz, Function.update_self] at hy'
      rw [← Option.some.inj hy', hz]
      exact h.timer x y hy (by rw [hpc]; simp)
    · rw [Function.update_of_ne hz] at hy'
      exact h.timer z y' hy' hrun
  · obtain ⟨y', hy', hu'⟩ := h.owner u z hu
    obtain ⟨y'', hy'', heq⟩ := sleepTimer_owner hy
      (rfl : ({ y with pc := .wake } : SleepTimer τ).task = y.task) z y' hy'
    exact ⟨y'', hy'', heq.trans hu'⟩

/-- **The callback of a sleep** wakes the task that waits for it. -/
theorem followed_wake (h : Follows s p) (hp : ProcessorTasks.Inv p) {y : SleepTimer τ}
    (hy : s.sleepTimer x = some y) (hrun : y.pc ≠ .finished) :
    Followed { s.wake y.task (.timer x) with
      sleepTimer := Function.update s.sleepTimer x (some { y with pc := .finished }) } p := by
  have hpend : s.pending x = true := by
    rw [State.pending, hy]; simpa using hrun
  have hsleep := h.timer x y hy hrun
  have hdone : State.pending { s.wake y.task (.timer x) with
      sleepTimer := Function.update s.sleepTimer x (some { y with pc := .finished }) } x =
        false := by
    simp only [State.pending, Function.update_self, Option.any_some]
    rfl
  have hpending : ∀ z, z ≠ x → State.pending { s.wake y.task (.timer x) with
      sleepTimer := Function.update s.sleepTimer x (some { y with pc := .finished }) } z =
        s.pending z := fun z hz => pending_congr (Function.update_of_ne hz _ _)
  -- no other task sleeps with this timer
  have hne : ∀ u z, u ≠ y.task → (s.taskPc u).sleeping = some z → z ≠ x := by
    intro u z hu hz heq
    obtain ⟨y', hy', hyu⟩ := h.owner u z hz
    rw [heq, hy] at hy'
    exact hu (by rw [← hyu, ← Option.some.inj hy'])
  have hmatch : Matches s ⟨y.task, .timer x, s.waits y.task⟩ :=
    ⟨fun _ => rfl, fun z hz => ⟨rfl, by rw [Option.some.inj (hsleep.symm.trans hz)]⟩⟩
  rcases TaskPc.sleeping_cases hsleep with hcoHold | hheld
  · -- it is on its way: the wake comes early
    have hr : s.runs y.task := (h.active _).mp (by rw [hcoHold]; rfl)
    have hcur : p.queues.m_curTask = some y.task := h.curTask.trans hr.2
    have hearly : p.early = false := by rw [h.coHold _ x hcoHold, hpend]; rfl
    have hno : ¬ p.held y.task = true := by rw [(hp.current _ hcur).2.2]; simp
    refine .inr ⟨.wake y.task, _, by
      rw [ProcessorTasks.step, if_neg hno, if_pos ⟨h.pc.trans hr.1, hcur, hearly⟩], ?_⟩
    refine h.wake y.task (.timer x) rfl rfl rfl rfl rfl rfl rfl rfl rfl rfl h.added (fun _ => id)
      (fun u w hu => ?_) (fun u w hu => ?_) (fun _ => ⟨_, x, hcoHold⟩) sleepTimer_running
      (sleepTimer_owner hy rfl) (sleepTimer_fresh hy) hmatch
    · have heq : u ≠ y.task := fun heq => by rw [heq, hcoHold] at hu; cases hu
      exact (h.held u w hu).trans (hpending w (hne u w heq (by rw [hu]; rfl))).symm
    · have heq : u = y.task := runs_unique ((h.active u).mp (by rw [hu]; rfl)) hr
      have hw : x = w := by rw [heq, hcoHold] at hu; cases hu; rfl
      rw [← hw]
      exact (congrArg not hdone).symm
  · -- it has swapped out, and its wake is to come
    have hp' : p.held y.task = true := by rw [h.held _ x hheld, hpend]
    refine .inr ⟨.wake y.task, _, by rw [ProcessorTasks.step, if_pos hp'], ?_⟩
    refine h.wake y.task (.timer x) rfl rfl rfl rfl rfl rfl rfl rfl rfl rfl h.added (fun _ => id)
      (fun u w hu => ?_) (fun u w hu => ?_) h.early sleepTimer_running (sleepTimer_owner hy rfl)
      (sleepTimer_fresh hy) hmatch
    · by_cases heq : u = y.task
      · have hw : w = x := by rw [heq, hheld] at hu; cases hu; rfl
        rw [heq, hw]
        exact (Function.update_self _ _ _).trans hdone.symm
      · exact (Function.update_of_ne heq _ _).trans
          ((h.held u w hu).trans (hpending w (hne u w heq (by rw [hu]; rfl))).symm)
    · have heq : u ≠ y.task := fun heq => by rw [heq, hheld] at hu; cases hu
      exact (h.coHold u w hu).trans
        (congrArg not (hpending w (hne u w heq (by rw [hu]; rfl))).symm)

/-- Every step of the timer of a sleep. -/
theorem followed_sleepTimerStep (h : Follows s p) (hp : ProcessorTasks.Inv p) {y : SleepTimer τ}
    (hy : s.sleepTimer x = some y) (hs : sleepTimerStep s x y y.pc = some s') : Followed s' p := by
  cases hpc : y.pc with
  | armed =>
    rw [hpc] at hs
    rw [← Option.some.inj hs]
    exact .inl (follows_armed h hy hpc)
  | wake =>
    rw [hpc] at hs
    rw [← Option.some.inj hs]
    exact followed_wake h hp hy (by rw [hpc]; simp)
  | finished =>
    rw [hpc] at hs
    exact absurd hs (by rintro ⟨⟩)

/-- User code enters a hooked call. -/
theorem followed_user (h : Follows s p) (hp : ProcessorTasks.Inv p) (ht : s.runs t)
    (hexec : s.taskPc t = .exec) (hactive : pc.active = true) (hsleep : pc.sleeping = none) :
    Follows (s.goto t pc) p :=
  h.move hp ht (by rw [hexec]; rfl) pc hactive hsleep rfl rfl rfl rfl rfl (fun _ _ => rfl) rfl rfl

/-- User code leaves the loop to another task. -/
theorem followed_leave (h : Follows s p) (hp : ProcessorTasks.Inv p) (ht : s.runs t)
    (hexec : s.taskPc t = .exec) (pc : TaskPc) (hactive : pc.active = false)
    (hcall : pc.inCall = false)
    (hsleep : pc.sleeping = none) (hheld : ∀ x, pc ≠ .sleep (.held x)) {out : TaskState}
    (hended : (p.swapped t out).ended t = true ↔ pc = .term)
    (hs : s.swapOut t pc out = some s') : Followed s' p := by
  obtain ⟨e, hcur, he⟩ := Option.map_eq_some_iff.mp ht.2
  obtain ⟨hearly, -⟩ :=
    h.not_queued hp ht fun x hx => by rw [hx] at hexec; exact absurd hexec (by simp)
  rw [← he] at hs hexec hended
  refine .inr (h.swapOut hcur ht.1 hs hactive (fun he => absurd (hearly.symm.trans he) (by simp))
    hended (fun x hx => absurd hx (hheld x)) (by rw [hexec, hsleep]; rfl) fun e' _ heq => ?_)
  have hself : s'.taskPc e'.task = pc := by
    rw [← Option.some.inj ((swapOut_eq hcur).symm.trans hs), heq]
    exact Function.update_self _ _ _
  exact matches_of_active (by rw [hself, hcall]) (by rw [hself, hsleep])

/-- **Step by step** the processor does what the event loop does. -/
theorem followed_step {a : Action τ} (h : Follows s p) (hp : ProcessorTasks.Inv p)
    (hg : Awaited s a) (hs : step s a = some s') : Followed s' p := by
  cases a with
  | addTask t =>
    obtain ⟨hnew, hs⟩ := Option.ite_none_left_eq_some.mp hs
    rw [← Option.some.inj hs]
    have hadded : p.added t = false := by rw [h.added]; simpa using hnew
    have hready : s.taskPc t = .ready := by
      by_contra hne
      exact hnew (h.begun t hne)
    refine .inr ⟨.addTask t, _, by rw [ProcessorTasks.step, if_neg (by rw [hadded]; simp)], ?_⟩
    refine h.wake t .addTask rfl rfl rfl rfl rfl rfl rfl rfl rfl rfl ?_ (fun u hu => ?_) h.held
      h.coHold h.early (fun _ _ hy _ => hy) (fun _ y hy => ⟨y, hy, rfl⟩) (fun _ => id)
      (matches_of_active ?_ ?_)
    · show Function.update p.added t true = Function.update s.added t true
      rw [h.added]
    · by_cases heq : u = t
      · rw [heq]; exact Function.update_self _ _ _
      · exact (Function.update_of_ne heq _ _).trans hu
    · show (s.taskPc t).inCall = false
      rw [hready]; rfl
    · show (s.taskPc t).sleeping = none
      rw [hready]; rfl
  | start =>
    rw [← Option.some.inj hs]
    refine .inr ⟨.start, _, rfl, ?_⟩
    exact ⟨h.queues, h.pc, rfl, h.added, h.ended, h.held, h.coHold, h.early, h.active, h.begun,
      h.timer, h.owner, h.fresh, fun e he => ⟨(h.entry e he).call, (h.entry e he).sleep⟩⟩
  | loop => exact .inr (h.loop hp hs)
  | trigger channel op =>
    obtain ⟨hidle, hs⟩ := Option.ite_none_right_eq_some.mp hs
    split at hs
    · rw [← Option.some.inj hs]
      exact .inl h
    · rename_i t ht
      obtain ⟨hcall, hqueued⟩ := hg t ht
      rw [← Option.some.inj hs]
      exact followed_trigger h hp hidle hcall hqueued
  | idle =>
    obtain ⟨hidle, hs⟩ := Option.ite_none_right_eq_some.mp hs
    rw [← Option.some.inj hs]
    have hstep : ProcessorTasks.step p .idle = some { p with pc := .afterIdle } := by
      rw [ProcessorTasks.step, if_pos (h.pc.trans hidle)]
    have hp' : { p with pc := .afterIdle } =
        { p with pc := .afterIdle, queues := s.queues.map Waking.task, moved := p.moved } := by
      rw [← h.queues]
    refine .inr ⟨.idle, _, hstep, ?_⟩
    rw [hp']
    exact h.stay (by rw [hidle]; simp) (by simp) fun _ he => he
  | io t f fd =>
    obtain ⟨⟨ht, hexec⟩, hs⟩ := Option.ite_none_right_eq_some.mp hs
    split at hs <;> rw [← Option.some.inj hs]
    · exact .inl h
    · exact .inl (followed_user h hp ht hexec rfl rfl)
  | connect t fd =>
    obtain ⟨⟨ht, hexec⟩, hs⟩ := Option.ite_none_right_eq_some.mp hs
    split at hs
    · rw [← Option.some.inj hs]
      exact .inl (h.move hp ht (by rw [hexec]; rfl) .exec rfl rfl rfl rfl rfl rfl rfl
        (fun _ _ => rfl) rfl rfl)
    · split at hs <;> rw [← Option.some.inj hs]
      · exact .inl h
      · exact .inl (followed_user h hp ht hexec rfl rfl)
  | sleep t f =>
    obtain ⟨⟨ht, hexec⟩, hs⟩ := Option.ite_none_right_eq_some.mp hs
    rw [← Option.some.inj hs]
    exact .inl (followed_user h hp ht hexec rfl rfl)
  | run t r =>
    obtain ⟨ht, hs⟩ := Option.ite_none_right_eq_some.mp hs
    split at hs
    · exact followed_callStep h hp ht ‹_› hs
    · exact followed_sleepStep h hp ht ‹_› hs
    · exact absurd hs (by simp)
  | yield t =>
    obtain ⟨⟨ht, hexec⟩, hs⟩ := Option.ite_none_right_eq_some.mp hs
    refine followed_leave h hp ht hexec .ready rfl rfl rfl (by simp) ?_ hs
    have hended := h.ended t
    rw [hexec] at hended
    exact hended.trans (iff_of_false (by simp) (by simp))
  | term t except =>
    obtain ⟨⟨ht, hexec⟩, hs⟩ := Option.ite_none_right_eq_some.mp hs
    refine followed_leave h hp ht hexec .term rfl rfl rfl (by simp) (iff_of_true ?_ rfl) hs
    cases except <;> exact Function.update_self _ _ _
  | create fd isSocket =>
    obtain ⟨-, hs⟩ := Option.ite_none_right_eq_some.mp hs
    rw [← Option.some.inj hs]
    exact .inl (h.congr rfl rfl rfl rfl rfl rfl rfl rfl)
  | setUserNonblock fd v =>
    exact .inl (follows_setOption h (fun i => i.setUserNonblock v) hs)
  | setSocketTimeout fd type ms =>
    exact .inl (follows_setOption h (fun i => i.setSocketTimeout type ms) hs)
  | setTcpConnectTimeout fd ms =>
    exact .inl (follows_setOption h (fun i => i.setTcpConnectTimeout ms) hs)
  | expire x =>
    simp only [step] at hs
    split at hs
    · rw [← Option.some.inj hs]
      exact .inl (h.congr rfl rfl rfl rfl rfl rfl rfl rfl)
    · exact absurd hs (by simp)
  | callback x => exact .inl (follows_callbackStep h hs)
  | sleepTimer x =>
    obtain ⟨y, hy, hs⟩ := Option.bind_eq_some_iff.mp hs
    exact followed_sleepTimerStep h hp hy hs

/-! ### Only the current task moves -/

/-- A step moves the task `u` or none. -/
def Moves (s s' : State τ) (u : τ) : Prop :=
  s'.taskPc = s.taskPc ∨ ∃ pc, s'.taskPc = Function.update s.taskPc u pc

theorem swapOut_moves {pc : TaskPc} {out : TaskState} (hs : s.swapOut t pc out = some s') :
    Moves s s' t := by
  obtain ⟨⟨pc', queues⟩, -, hs⟩ := Option.map_eq_some_iff.mp hs
  exact .inr ⟨pc, by rw [← hs]; rfl⟩

omit [DecidableEq τ] in
theorem updateChannel_taskPc {i : Nat} (hu : s.updateChannel i = some s') :
    s'.taskPc = s.taskPc := by
  obtain ⟨⟨m, info⟩, -, hs⟩ := Option.map_eq_some_iff.mp hu
  rw [← hs]
  rfl

omit [DecidableEq τ] in
theorem setOption_taskPc {fd : Nat} (set : FdInfo τ → FdInfo τ)
    (hs : s.setOption fd set = some s') : s'.taskPc = s.taskPc := by
  obtain ⟨i, -, hs⟩ := Option.map_eq_some_iff.mp hs
  rw [← hs]
  rfl

theorem callStep_moves {c : Hook.Call} {r : Hook.SysResult} {q : Hook.CallPc}
    (hs : callStep s t c r q = some s') : Moves s s' t := by
  cases q with
  | fun_ =>
    simp only [callStep] at hs
    split at hs <;> rw [← Option.some.inj hs]
    · exact .inl rfl
    all_goals exact .inr ⟨_, rfl⟩
  | updateChannel timer =>
    obtain ⟨s₁, hs₁, hs⟩ := Option.map_eq_some_iff.mp hs
    exact .inr ⟨_, by rw [← hs, State.goto, updateChannel_taskPc hs₁]⟩
  | coHold timer => exact swapOut_moves hs
  | held timer => exact absurd hs (by rintro ⟨⟩)
  | cancel timer =>
    cases timer <;> exact .inr ⟨_, by rw [← Option.some.inj hs]; rfl⟩
  | expired timer =>
    simp only [callStep] at hs
    split at hs
    · exact .inr ⟨_, by rw [← Option.some.inj hs]; rfl⟩
    · split at hs <;> exact .inr ⟨_, by rw [← Option.some.inj hs]; rfl⟩
  | _ => exact .inr ⟨_, (congrArg State.taskPc (Option.some.inj hs)).symm⟩

theorem sleepStep_moves {q : SleepPc} (hs : sleepStep s t q = some s') : Moves s s' t := by
  cases q with
  | coHold x => exact swapOut_moves hs
  | held x => exact absurd hs (by rintro ⟨⟩)
  | _ => exact .inr ⟨_, (congrArg State.taskPc (Option.some.inj hs)).symm⟩

omit [DecidableEq τ] in
theorem callbackStep_taskPc {q : Hook.TimeoutPc} (hs : callbackStep s x q = some s') :
    s'.taskPc = s.taskPc := by
  cases q with
  | cancelEvent => rw [← Option.some.inj hs]; rfl
  | updateChannel =>
    obtain ⟨s₁, hs₁, hs⟩ := Option.map_eq_some_iff.mp hs
    rw [← hs, State.setTimer, updateChannel_taskPc hs₁]
  | setExpired => rw [← Option.some.inj hs]; rfl
  | _ => exact absurd hs (by rintro ⟨⟩)

omit [DecidableEq τ] in
theorem sleepTimerStep_taskPc {y : SleepTimer τ} {q : SleepTimerPc}
    (hs : sleepTimerStep s x y q = some s') : s'.taskPc = s.taskPc := by
  cases q with
  | finished => exact absurd hs (by rintro ⟨⟩)
  | armed => rw [← Option.some.inj hs]
  | wake => rw [← Option.some.inj hs]; rfl

/-- The loop starts the current task, or moves none. -/
theorem loopStep_taskPc (hs : loopStep s = some s') : s'.taskPc = s.taskPc ∨
    ∃ u pc, s.queues.m_curTask.map Waking.task = some u ∧
      s'.taskPc = Function.update s.taskPc u pc := by
  unfold loopStep at hs
  obtain ⟨-, hs⟩ := Option.ite_none_left_eq_some.mp hs
  obtain ⟨⟨loopPc, queues⟩, hloop, hs⟩ := Option.bind_eq_some_iff.mp hs
  dsimp only at hs
  split at hs
  · rename_i e hcur
    obtain ⟨pc', -, hs⟩ := Option.map_eq_some_iff.mp hs
    rw [(runStep_inner hloop).2] at hcur
    exact .inr ⟨e.task, pc', by rw [hcur]; rfl, by rw [← hs]; rfl⟩
  · exact .inl (by rw [← Option.some.inj hs])

/-- **Only the current task moves.** -/
theorem taskPc_step {a : Action τ} (hs : step s a = some s') (hne : s'.taskPc t ≠ s.taskPc t) :
    s.queues.m_curTask.map Waking.task = some t := by
  have hsame : s'.taskPc = s.taskPc → s.queues.m_curTask.map Waking.task = some t := fun heq =>
    absurd (congrFun heq t) hne
  have hself : ∀ {u}, s.queues.m_curTask.map Waking.task = some u → Moves s s' u →
      s.queues.m_curTask.map Waking.task = some t := by
    rintro u hu (hmoves | ⟨pc, hmoves⟩)
    · exact hsame hmoves
    · by_cases heq : t = u
      · exact heq ▸ hu
      · exact absurd (by rw [hmoves, Function.update_of_ne heq]) hne
  cases a with
  | loop =>
    rcases loopStep_taskPc hs with heq | ⟨u, pc, hu, hmoves⟩
    · exact hsame heq
    · exact hself hu (.inr ⟨pc, hmoves⟩)
  | addTask u =>
    obtain ⟨-, hs⟩ := Option.ite_none_left_eq_some.mp hs
    exact hsame (by rw [← Option.some.inj hs]; rfl)
  | start => exact hsame (by rw [← Option.some.inj hs])
  | trigger channel op =>
    obtain ⟨-, hs⟩ := Option.ite_none_right_eq_some.mp hs
    split at hs <;> exact hsame (congrArg State.taskPc (Option.some.inj hs)).symm
  | idle =>
    obtain ⟨-, hs⟩ := Option.ite_none_right_eq_some.mp hs
    exact hsame (by rw [← Option.some.inj hs])
  | io u f fd =>
    obtain ⟨⟨hu, -⟩, hs⟩ := Option.ite_none_right_eq_some.mp hs
    apply hself hu.2
    split at hs <;> rw [← Option.some.inj hs]
    · exact .inl rfl
    · exact .inr ⟨_, rfl⟩
  | connect u fd =>
    obtain ⟨⟨hu, -⟩, hs⟩ := Option.ite_none_right_eq_some.mp hs
    apply hself hu.2
    split at hs
    · exact .inr ⟨_, by rw [← Option.some.inj hs]; rfl⟩
    · split at hs <;> rw [← Option.some.inj hs]
      · exact .inl rfl
      · exact .inr ⟨_, rfl⟩
  | sleep u f =>
    obtain ⟨⟨hu, -⟩, hs⟩ := Option.ite_none_right_eq_some.mp hs
    exact hself hu.2 (.inr ⟨_, by rw [← Option.some.inj hs]; rfl⟩)
  | run u r =>
    obtain ⟨hu, hs⟩ := Option.ite_none_right_eq_some.mp hs
    apply hself hu.2
    split at hs
    · exact callStep_moves hs
    · exact sleepStep_moves hs
    · exact absurd hs (by simp)
  | yield u =>
    obtain ⟨⟨hu, -⟩, hs⟩ := Option.ite_none_right_eq_some.mp hs
    exact hself hu.2 (swapOut_moves hs)
  | term u except =>
    obtain ⟨⟨hu, -⟩, hs⟩ := Option.ite_none_right_eq_some.mp hs
    exact hself hu.2 (swapOut_moves hs)
  | create fd isSocket =>
    obtain ⟨-, hs⟩ := Option.ite_none_right_eq_some.mp hs
    exact hsame (by rw [← Option.some.inj hs])
  | setUserNonblock fd v => exact hsame (setOption_taskPc (fun i => i.setUserNonblock v) hs)
  | setSocketTimeout fd type ms =>
    exact hsame (setOption_taskPc (fun i => i.setSocketTimeout type ms) hs)
  | setTcpConnectTimeout fd ms =>
    exact hsame (setOption_taskPc (fun i => i.setTcpConnectTimeout ms) hs)
  | expire x =>
    simp only [step] at hs
    split at hs
    · exact hsame (by rw [← Option.some.inj hs]; rfl)
    · exact absurd hs (by simp)
  | callback x => exact hsame (callbackStep_taskPc hs)
  | sleepTimer x =>
    obtain ⟨y, -, hs⟩ := Option.bind_eq_some_iff.mp hs
    exact hsame (sleepTimerStep_taskPc hs)

end

/-! ### Whole runs -/

/-- The loop runs like a processor whose holds have one wake each. -/
theorem follows_reachable {s : State τ} (h : (system τ).ReachableUnder Awaited s) :
    ∃ p, (ProcessorTasks.system τ).Reachable p ∧ Follows s p := by
  refine h.simulates (fun s hs => ⟨_, rfl, ?_⟩) fun s p a s' hp hR hg hs => ?_
  · rw [show s = initial τ from hs]
    exact follows_initial
  · exact followed_step hR (ProcessorTasks.inv_reachable hp) hg hs

/-- A processor without lost tasks has each task once. -/
theorem Follows.ownWakes {s : State τ} {p : ProcessorTasks.State τ} (h : Follows s p)
    (hp : ProcessorTasks.Inv p) : OwnWakes s where
  once t := by
    have hocc : occurrences s.queues t =
        ProcessorTasks.inQueues p.queues t + ProcessorTasks.isCurrent p.queues t := by
      rw [h.queues]; rfl
    have hacc := hp.account t
    have halive : p.isAlive t ≤ 1 := by
      unfold ProcessorTasks.State.isAlive; split <;> omega
    have hone : ProcessorTasks.isCurrent p.queues t ≤ 1 := by
      unfold ProcessorTasks.isCurrent; split <;> omega
    by_cases hway : s.onWay t
    · have hle : occurrences s.queues t ≤ 2 := by
        rw [hocc]
        split at hacc <;> omega
      by_cases htwo : occurrences s.queues t = 2
      · exact .inr ⟨hway, htwo⟩
      · exact .inl (by omega)
    · -- an early wake is that of another task
      left
      rw [hocc]
      cases hearly : p.early with
      | false =>
        rw [hearly, if_neg Bool.false_ne_true] at hacc
        omega
      | true =>
        obtain ⟨u, x, hu⟩ := h.early hearly
        have hr : s.runs u := (h.active u).mp (by rw [hu]; rfl)
        have hne : p.queues.m_curTask ≠ some t := fun hc => by
          have heq : u = t := Option.some.inj (hr.2.symm.trans (h.curTask.symm.trans hc))
          exact hway ⟨heq ▸ hr, x, heq ▸ hu⟩
        have hzero : ProcessorTasks.isCurrent p.queues t = 0 := if_neg hne
        rw [hzero, ite_self] at hacc
        omega
  resumed t a s' hstate hs hne := by
    have hcur := taskPc_step hs hne
    obtain ⟨e, he, het⟩ := Option.map_eq_some_iff.mp hcur
    have hheld := TaskPc.hold_cases hstate
    have hnot : (s.taskPc t).active = false := by
      rcases hheld with hcall | ⟨x, hx⟩
      · exact TaskPc.not_active hcall
      · rw [hx]; rfl
    have hrun : s.pc ≠ .running := fun hr => by
      rw [(h.active t).mpr ⟨hr, hcur⟩] at hnot
      exact absurd hnot (by simp)
    have hm : Matches s e := h.entry e (.inr (.inr ⟨he, hrun⟩))
    have hwoken : p.held t = false := (hp.current t (h.curTask.trans hcur)).2.2
    refine ⟨e, he, het, ?_, fun x hx => ⟨(hm.sleep x (by rw [het, hx]; rfl)).2, ?_⟩⟩
    · rcases hheld with hcall | ⟨x, hx⟩
      · exact het ▸ hm.call (by rw [het, hcall])
      · exact het ▸ (hm.sleep x (by rw [het, hx]; rfl)).1
    · exact (h.held t x hx).symm.trans hwoken

/-- **Every wake belongs to its wait** in any run in which the events wake tasks only while they
    wait for them. -/
theorem awaited_ownWakes {s : State τ} (h : (system τ).ReachableUnder Awaited s) : OwnWakes s := by
  obtain ⟨p, hp, hR⟩ := follows_reachable h
  exact hR.ownWakes (ProcessorTasks.inv_reachable hp)

/-- The event comes while the task waits for it, and then it sleeps. -/
theorem awaited_ownWakes_receiveSleep :
    ∃ s : State Unit, s.taskPc () = .sleep (.held 0) ∧ OwnWakes s :=
  have hr : (system Unit).exec (initial Unit) receiveSleep = some _ := rfl
  ⟨_, rfl, awaited_ownWakes (.exec (.init rfl) (by decide) hr)⟩

end LimWebserver.HookSleep
