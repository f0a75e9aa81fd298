import LimWebserver.Coroutine.TimerApart

namespace LimWebserver.TimerManager

open LimWebserver.Lib

/-!
# Coroutine — calls on timers, one after the other

* `cancelTimer`, `refreshTimer`, `resetTimer`, `addTimer`, `collect` — each call as a function;
* `Call`, `Calls`, `callSystem` — histories of such calls;
* `Finishes` — a thread runs its call to the end while nobody else takes a step;
  `call_alone` — it then does what the function says.
-/

variable {Θ κ : Type*}

/-! ### The calls -/

namespace State

/-- `cancelTimer(timer)` -/
def cancelTimer (s : State Θ κ) (t : Nat) : State Θ κ × Bool :=
  if (s.timer t).m_callback.isNone then (s, false)
  else ((s.setTimer t { s.timer t with m_callback := none }).erase t, true)

/-- `refreshTimer(timer)` -/
def refreshTimer (s : State Θ κ) (t : Nat) (now : UInt64) : State Θ κ × Bool :=
  if (s.timer t).m_callback.isNone then (s, false)
  else
    match s.find t with
    | none => (s, false)
    | some _ =>
      let s' := s.erase t
      ((s'.setTimer t { s'.timer t with m_next := now + (s'.timer t).m_ms }).insert t, true)

/-- `resetTimer(timer, ms, from_now)` -/
def resetTimer (s : State Θ κ) (t : Nat) (ms : UInt64) (from_now : Bool) (now : UInt64) :
    State Θ κ × Bool :=
  if ms = (s.timer t).m_ms && !from_now then (s, true)
  else if (s.timer t).m_callback.isNone then (s, false)
  else
    match s.find t with
    | none => (s, false)
    | some _ =>
      let s' := s.erase t
      let start := if from_now then now else (s'.timer t).m_next - (s'.timer t).m_ms
      ((s'.setTimer t { s'.timer t with m_ms := ms, m_next := start + ms }).insert t, true)

/-- `addTimer(ms, callback, recurring)`, whose timer gets the address `t`. -/
def addTimer (s : State Θ κ) (t : Nat) (ms : UInt64) (callback : Option κ) (recurring : Bool)
    (now : UInt64) : State Θ κ :=
  { (s.setTimer t ⟨recurring, ms, now + ms, callback⟩).insert t with
    built := Function.update s.built t true }

/-- `listExpiredCallback(callback_list)` with an empty vector, and what is in the vector then. -/
def collect (s : State Θ κ) (now : UInt64) (probe : Nat) :
    State Θ κ × List (Nat × Option κ) :=
  let s' := { s with callback_list := [] }.listExpiredCallback now probe
  ({ s' with callback_list := [] }, s'.callback_list)

end State

/-- A call. -/
inductive Call (κ : Type*)
  /-- `addTimer(ms, callback, recurring)`; its timer gets the address `t` -/
  | addTimer (t : Nat) (ms : UInt64) (callback : Option κ) (recurring : Bool) (now : UInt64)
  | cancel (t : Nat)
  | refresh (t : Nat) (now : UInt64)
  | reset (t : Nat) (ms : UInt64) (from_now : Bool) (now : UInt64)
  /-- `listExpiredCallback`; its probe timer is built at address `probe` -/
  | listExpiredCallback (now : UInt64) (probe : Nat)
  deriving DecidableEq, Repr

/-- The state after a call. -/
def Call.apply (s : State Θ κ) : Call κ → State Θ κ
  | .addTimer t ms callback recurring now => s.addTimer t ms callback recurring now
  | .cancel t => (s.cancelTimer t).1
  | .refresh t now => (s.refreshTimer t now).1
  | .reset t ms from_now now => (s.resetTimer t ms from_now now).1
  | .listExpiredCallback now probe => (s.collect now probe).1

/-- A new timer has a new address, and the other calls are made on timers. -/
def Call.Allowed (s : State Θ κ) : Call κ → Prop
  | .addTimer t _ _ _ _ => s.built t = false
  | .cancel t | .refresh t _ | .reset t _ _ _ => s.built t = true
  | .listExpiredCallback _ _ => True

instance (s : State Θ κ) : ∀ a : Call κ, Decidable (a.Allowed s)
  | .addTimer _ _ _ _ _ | .cancel _ | .refresh _ _ | .reset _ _ _ _ =>
    inferInstanceAs (Decidable (_ = _))
  | .listExpiredCallback _ _ => .isTrue trivial

/-- A history of calls. -/
structure Calls (Θ κ : Type*) where
  timers : State Θ κ
  /-- what the clock showed at the last `listExpiredCallback` that found timers -/
  reading : Option UInt64

/-- The last reading after a call. -/
def Calls.read (c : Calls Θ κ) : Call κ → Option UInt64
  | .listExpiredCallback now _ => if c.timers.m_timer_set = [] then c.reading else some now
  | .addTimer _ _ _ _ _ | .cancel _ | .refresh _ _ | .reset _ _ _ _ => c.reading

/-- One call. -/
def Calls.step (c : Calls Θ κ) (a : Call κ) : Option (Calls Θ κ) :=
  if a.Allowed c.timers then some ⟨a.apply c.timers, c.read a⟩ else none

/-- The histories of a manager that begins without timers. -/
def callSystem (Θ κ : Type*) : LTS (Calls Θ κ) (Call κ) where
  init := fun c => c = ⟨initial, none⟩
  step := Calls.step

/-! ### A call that is not interrupted -/

/-- How a thread begins a call. -/
def Call.begin (θ : Θ) : Call κ → Action Θ κ
  | .addTimer t ms callback recurring now => .addTimer θ t ms callback recurring now
  | .cancel t => .cancel θ t
  | .refresh t _ => .refresh θ t
  | .reset t ms from_now _ => .reset θ t ms from_now
  | .listExpiredCallback now probe => .listExpiredCallback now probe

/-- What the clock shows during a call. -/
def Call.clock : Call κ → UInt64
  | .addTimer _ _ _ _ now | .refresh _ now | .reset _ _ _ now | .listExpiredCallback now _ => now
  | .cancel _ => 0

/-- The same timers in the same set. -/
structure SameTimers (s s' : State Θ κ) : Prop where
  timer : s.timer = s'.timer
  m_timer_set : s.m_timer_set = s'.m_timer_set
  badErase : s.badErase = s'.badErase

section Alone

variable [DecidableEq Θ] {s s' s₁ : State Θ κ} {θ : Θ} {t : Nat} {now : UInt64}

/-- Thread `θ` runs its call to the end while nobody else takes a step, and the timers are then
    those of `s'`. -/
inductive Finishes (θ : Θ) (now : UInt64) (s' : State Θ κ) : State Θ κ → Prop
  | idle {s : State Θ κ} : s.thread θ = .idle → SameTimers s s' → Finishes θ now s' s
  | run {s s₁ : State Θ κ} {pc : ThreadPc} : s.thread θ = pc → threadStep s θ now pc = some s₁ →
      Finishes θ now s' s₁ → Finishes θ now s' s

/-- Such a run is one of the system. -/
theorem Finishes.exec (h : Finishes θ now s' s) :
    ∃ n s'', (system Θ κ).exec s (List.replicate n (.run θ now)) = some s'' ∧
      s''.thread θ = .idle ∧ SameTimers s'' s' := by
  induction h with
  | idle hθ hs => exact ⟨0, _, rfl, hθ, hs⟩
  | run hpc hstep _ ih =>
    obtain ⟨n, s'', hn, hθ, hs⟩ := ih
    refine ⟨n + 1, s'', ?_, hθ, hs⟩
    have h1 : (system Θ κ).step _ (.run θ now) = some _ := (congrArg _ hpc).trans hstep
    rw [List.replicate_succ, LTS.exec, h1]
    exact hn

theorem goto_thread (s : State Θ κ) (θ : Θ) (pc : ThreadPc) : (s.goto θ pc).thread θ = pc :=
  Function.update_self _ _ _

theorem goto_erase (s : State Θ κ) (θ : Θ) (pc : ThreadPc) (t : Nat) :
    (s.goto θ pc).erase t = (s.erase t).goto θ pc := by
  have hfind : (s.goto θ pc).find t = s.find t := rfl
  simp only [State.erase, hfind]
  split <;> rfl

theorem goto_insert (s : State Θ κ) (θ : Θ) (pc : ThreadPc) (t : Nat) :
    (s.goto θ pc).insert t = (s.insert t).goto θ pc := by
  have hfind : (s.goto θ pc).find t = s.find t := rfl
  simp only [State.insert, hfind]
  split <;> rfl

theorem goto_setTimer (s : State Θ κ) (θ : Θ) (pc : ThreadPc) (t : Nat) (x : Timer κ) :
    (s.goto θ pc).setTimer t x = (s.setTimer t x).goto θ pc := rfl

theorem goto_timer (s : State Θ κ) (θ : Θ) (pc : ThreadPc) : (s.goto θ pc).timer = s.timer := rfl

theorem goto_goto (s : State Θ κ) (θ : Θ) (pc pc' : ThreadPc) :
    (s.goto θ pc).goto θ pc' = s.goto θ pc' := by
  simp [State.goto]

omit [DecidableEq Θ] in
theorem setTimer_timer (s : State Θ κ) (t : Nat) (x : Timer κ) : (s.setTimer t x).timer t = x :=
  Function.update_self _ _ _

omit [DecidableEq Θ] in
theorem setTimer_setTimer (s : State Θ κ) (t : Nat) (x y : Timer κ) :
    (s.setTimer t x).setTimer t y = s.setTimer t y := by
  simp [State.setTimer]

theorem sameTimers_goto (s : State Θ κ) (θ : Θ) (pc : ThreadPc) : SameTimers (s.goto θ pc) s :=
  ⟨rfl, rfl, rfl⟩

/-- `cancelTimer` alone. -/
theorem cancel_alone (h : s.thread θ = .cancelTest t) :
    Finishes θ now (s.cancelTimer t).1 s := by
  cases hcb : (s.timer t).m_callback with
  | none =>
    refine .run h rfl (.idle ?_ ?_)
    · simp [hcb, goto_thread]
    · simp only [State.cancelTimer, hcb]
      exact sameTimers_goto _ _ _
  | some f =>
    have htest : threadStep s θ now (.cancelTest t) = some (s.goto θ (.cancelErase t)) := by
      simp [threadStep, hcb]
    refine .run h htest (.run (goto_thread _ _ _) rfl (.idle (goto_thread _ _ _) ?_))
    simp only [State.cancelTimer, hcb, goto_timer, goto_setTimer, goto_erase]
    exact ⟨rfl, rfl, rfl⟩

/-- `refreshTimer` alone. -/
theorem refresh_alone (h : s.thread θ = .refreshTest t) :
    Finishes θ now (s.refreshTimer t now).1 s := by
  cases hcb : (s.timer t).m_callback with
  | none =>
    refine .run h rfl (.idle ?_ ?_)
    · simp [hcb, goto_thread]
    · simp only [State.refreshTimer, hcb]
      exact sameTimers_goto _ _ _
  | some f =>
    have htest : threadStep s θ now (.refreshTest t) = some (s.goto θ (.refreshErase t)) := by
      simp [threadStep, hcb]
    refine .run h htest ?_
    cases hf : s.find t with
    | none =>
      have herase : threadStep (s.goto θ (.refreshErase t)) θ now (.refreshErase t) =
          some ((s.goto θ (.refreshErase t)).goto θ .idle) := by
        simp only [threadStep, show (s.goto θ (.refreshErase t)).find t = none from hf]
      refine .run (goto_thread _ _ _) herase (.idle (goto_thread _ _ _) ?_)
      simp only [State.refreshTimer, hcb, hf]
      exact ⟨rfl, rfl, rfl⟩
    | some u =>
      have herase : threadStep (s.goto θ (.refreshErase t)) θ now (.refreshErase t) =
          some (((s.goto θ (.refreshErase t)).erase t).goto θ (.refreshRead t)) := by
        simp only [threadStep, show (s.goto θ (.refreshErase t)).find t = some u from hf]
      -- the erase, the reading of the clock, the write and the insert
      refine .run (goto_thread _ _ _) herase (.run (goto_thread _ _ _) rfl ?_)
      refine .run (goto_thread _ _ _) rfl (.run (goto_thread _ _ _) rfl ?_)
      refine .idle (goto_thread _ _ _) ?_
      simp only [State.refreshTimer, hcb, hf, goto_erase, goto_setTimer, goto_insert, goto_goto]
      exact ⟨rfl, rfl, rfl⟩

/-- The end of `addTimer` alone, whether or not it calls `tickle()`. -/
theorem addTest_alone (h : s.thread θ = .addTest t) : Finishes θ now s s := by
  by_cases hhead : s.m_timer_set.head? = some t
  · have htest : threadStep s θ now (.addTest t) = some (s.goto θ (.addTickle t)) := by
      simp only [threadStep, if_pos hhead]
    refine .run h htest (.run (goto_thread _ _ _) rfl (.idle ?_ ⟨rfl, rfl, rfl⟩))
    exact goto_thread _ _ _
  · have htest : threadStep s θ now (.addTest t) =
        some { s.goto θ .idle with shared := Function.update s.shared t true } := by
      simp only [threadStep, if_neg hhead]
    exact .run h htest (.idle (goto_thread _ _ _) ⟨rfl, rfl, rfl⟩)

theorem Finishes.congr (h : Finishes θ now s' s) {s'' : State Θ κ} (hs : SameTimers s' s'') :
    Finishes θ now s'' s := by
  induction h with
  | idle hθ hsame => exact .idle hθ ⟨hsame.timer.trans hs.timer,
      hsame.m_timer_set.trans hs.m_timer_set, hsame.badErase.trans hs.badErase⟩
  | run hpc hstep _ ih => exact .run hpc hstep ih

/-- The part of `resetTimer` from `timer->m_ms = ms` on, alone. -/
theorem resetWriteMs_alone {ms start : UInt64} (h : s.thread θ = .resetWriteMs t ms start) :
    Finishes θ now ((s.setTimer t { s.timer t with m_ms := ms, m_next := start + ms }).insert t)
      s := by
  refine .run h rfl (.run (goto_thread _ _ _) rfl (.run (goto_thread _ _ _) rfl ?_))
  apply (addTest_alone (goto_thread _ _ _)).congr
  simp only [goto_timer, goto_setTimer, setTimer_timer, setTimer_setTimer, goto_insert]
  exact ⟨rfl, rfl, rfl⟩

/-- `resetTimer` alone. -/
theorem reset_alone {ms : UInt64} {from_now : Bool} (h : s.thread θ = .resetSame t ms from_now) :
    Finishes θ now (s.resetTimer t ms from_now now).1 s := by
  by_cases hsame : (decide (ms = (s.timer t).m_ms) && !from_now) = true
  · -- the early return, before the callback is looked at
    refine .run h rfl ?_
    simp only [State.resetTimer, if_pos hsame]
    exact .idle (goto_thread _ _ _) ⟨rfl, rfl, rfl⟩
  have hfirst : threadStep s θ now (.resetSame t ms from_now) =
      some (s.goto θ (.resetTest t ms from_now)) := by
    simp only [threadStep, if_neg hsame]
  refine .run h hfirst ?_
  cases hcb : (s.timer t).m_callback with
  | none =>
    have htest : threadStep (s.goto θ (.resetTest t ms from_now)) θ now (.resetTest t ms from_now) =
        some ((s.goto θ (.resetTest t ms from_now)).goto θ .idle) := by
      simp [threadStep, goto_timer, hcb]
    refine .run (goto_thread _ _ _) htest (.idle (goto_thread _ _ _) ?_)
    simp only [State.resetTimer, if_neg hsame, hcb]
    exact ⟨rfl, rfl, rfl⟩
  | some f =>
    have htest : threadStep (s.goto θ (.resetTest t ms from_now)) θ now (.resetTest t ms from_now) =
        some ((s.goto θ (.resetTest t ms from_now)).goto θ (.resetErase t ms from_now)) := by
      simp [threadStep, goto_timer, hcb]
    refine .run (goto_thread _ _ _) htest ?_
    rw [goto_goto]
    cases hf : s.find t with
    | none =>
      have herase : threadStep (s.goto θ (.resetErase t ms from_now)) θ now
          (.resetErase t ms from_now) =
          some ((s.goto θ (.resetErase t ms from_now)).goto θ .idle) := by
        simp only [threadStep, show (s.goto θ (.resetErase t ms from_now)).find t = none from hf]
      refine .run (goto_thread _ _ _) herase (.idle (goto_thread _ _ _) ?_)
      simp only [State.resetTimer, if_neg hsame, hcb, hf]
      exact ⟨rfl, rfl, rfl⟩
    | some u =>
      have herase : threadStep (s.goto θ (.resetErase t ms from_now)) θ now
          (.resetErase t ms from_now) =
          some (((s.goto θ (.resetErase t ms from_now)).erase t).goto θ
            (.resetStart t ms from_now)) := by
        simp only [threadStep, show (s.goto θ (.resetErase t ms from_now)).find t = some u from hf]
      refine .run (goto_thread _ _ _) herase ?_
      rw [goto_erase, goto_goto]
      simp only [State.resetTimer, if_neg hsame, hcb, hf]
      -- the start is read from the clock or from the timer
      cases from_now with
      | true =>
        refine .run (goto_thread _ _ _) rfl ((resetWriteMs_alone (goto_thread _ _ _)).congr ?_)
        rw [if_pos rfl, goto_goto, goto_setTimer, goto_insert]
        exact sameTimers_goto _ _ _
      | false =>
        refine .run (goto_thread _ _ _) rfl (.run (goto_thread _ _ _) rfl ?_)
        apply (resetWriteMs_alone (goto_thread _ _ _)).congr
        rw [if_neg Bool.false_ne_true, goto_goto, goto_goto, goto_setTimer, goto_insert]
        exact sameTimers_goto _ _ _

/-- The rest of `addTimer` alone, after it has built the timer. -/
theorem create_alone (h : s.thread θ = .create t) : Finishes θ now (s.insert t) s := by
  refine .run h rfl ((addTest_alone (goto_thread _ _ _)).congr ?_)
  exact sameTimers_goto _ _ _

omit [DecidableEq Θ] in
theorem sameTimers_insert (h : SameTimers s s') (t : Nat) :
    SameTimers (s.insert t) { s'.insert t with built := Function.update s'.built t true } := by
  have hbefore : s.before = s'.before := by
    funext u v
    simp only [State.before, State.key, h.timer]
  refine ⟨?_, ?_, ?_⟩
  · rw [insert_timer, h.timer, ← insert_timer]
  · by_cases ht : t ∈ s.m_timer_set
    · rw [State.insert, find_of_mem ht, State.insert, find_of_mem (h.m_timer_set ▸ ht)]
      exact h.m_timer_set
    · rw [insert_of_notMem ht, insert_of_notMem (h.m_timer_set ▸ ht)]
      simp only [hbefore, h.m_timer_set]
  · rw [insert_badErase, h.badErase, ← insert_badErase]

theorem cancelTimer_goto (s : State Θ κ) (θ : Θ) (pc : ThreadPc) (t : Nat) :
    ((s.goto θ pc).cancelTimer t).1 = (s.cancelTimer t).1.goto θ pc := by
  simp only [State.cancelTimer, goto_timer, goto_setTimer, goto_erase]
  split <;> rfl

theorem refreshTimer_goto (s : State Θ κ) (θ : Θ) (pc : ThreadPc) (t : Nat) (now : UInt64) :
    ((s.goto θ pc).refreshTimer t now).1 = (s.refreshTimer t now).1.goto θ pc := by
  have hfind : (s.goto θ pc).find t = s.find t := rfl
  simp only [State.refreshTimer, goto_timer, hfind, goto_erase, goto_setTimer, goto_insert]
  split
  · rfl
  · split <;> rfl

theorem resetTimer_goto (s : State Θ κ) (θ : Θ) (pc : ThreadPc) (t : Nat) (ms : UInt64)
    (from_now : Bool) (now : UInt64) :
    ((s.goto θ pc).resetTimer t ms from_now now).1 =
      (s.resetTimer t ms from_now now).1.goto θ pc := by
  have hfind : (s.goto θ pc).find t = s.find t := rfl
  have hms : ((s.goto θ pc).timer t).m_ms = (s.timer t).m_ms := rfl
  simp only [State.resetTimer, hms]
  by_cases hsame : (decide (ms = (s.timer t).m_ms) && !from_now) = true
  · simp only [if_pos hsame]
  · simp only [if_neg hsame, goto_timer, hfind, goto_erase, goto_setTimer, goto_insert]
    cases (s.timer t).m_callback with
    | none => rfl
    | some f => cases s.find t <;> rfl

/-- **The calls are the steps.** A call that a thread makes while nobody else takes a step does what
    the function says. -/
theorem call_alone {a : Call κ} (hθ : s.thread θ = .idle) (ha : a.Allowed s) (hs : Ordered s)
    (hshared : ∀ t, s.built t = true → s.shared t = true) (hlist : s.callback_list = []) :
    ∃ n s'', (system Θ κ).exec s (a.begin θ :: List.replicate n (.run θ a.clock)) = some s'' ∧
      s''.thread θ = .idle ∧ SameTimers s'' (a.apply s) := by
  -- a call begins with a step, and goes on as above
  have hfirst : ∀ {s₁ : State Θ κ}, step s (a.begin θ) = some s₁ →
      Finishes θ a.clock (a.apply s) s₁ →
      ∃ n s'', (system Θ κ).exec s (a.begin θ :: List.replicate n (.run θ a.clock)) = some s'' ∧
        s''.thread θ = .idle ∧ SameTimers s'' (a.apply s) := by
    intro s₁ hstep h
    obtain ⟨n, s'', hn, hrest⟩ := h.exec
    refine ⟨n, s'', ?_, hrest⟩
    have h1 : (system Θ κ).step s (a.begin θ) = some s₁ := hstep
    rw [LTS.exec, h1]
    exact hn
  cases a with
  | addTimer t ms callback recurring now =>
    have hsame : SameTimers
        { (s.setTimer t ⟨recurring, ms, now + ms, callback⟩).goto θ (.create t) with
          built := Function.update s.built t true }
        (s.setTimer t ⟨recurring, ms, now + ms, callback⟩) := ⟨rfl, rfl, rfl⟩
    refine hfirst (if_pos ⟨hθ, ha⟩) ((create_alone (Function.update_self _ _ _)).congr ?_)
    exact sameTimers_insert hsame t
  | cancel t =>
    refine hfirst (if_pos ⟨hθ, hshared t ha⟩) ((cancel_alone (goto_thread _ _ _)).congr ?_)
    rw [cancelTimer_goto]
    exact sameTimers_goto _ _ _
  | refresh t now =>
    refine hfirst (if_pos ⟨hθ, hshared t ha⟩) ((refresh_alone (goto_thread _ _ _)).congr ?_)
    rw [refreshTimer_goto]
    exact sameTimers_goto _ _ _
  | reset t ms from_now now =>
    refine hfirst (if_pos ⟨hθ, hshared t ha⟩) ((reset_alone (goto_thread _ _ _)).congr ?_)
    rw [resetTimer_goto]
    exact sameTimers_goto _ _ _
  | listExpiredCallback now probe =>
    -- one locked section, so that the first step is the whole call
    have hself : { s with callback_list := [] } = s := by rw [← hlist]
    have hstep : step s (.listExpiredCallback now probe) =
        some (s.listExpiredCallback now probe) := by
      simp only [step, hlist]
    obtain ⟨ts, rest, time, -, hc⟩ := collected_listExpiredCallback now probe hs
    refine hfirst hstep (.idle ?_ ?_)
    · rw [hc.thread]; exact hθ
    · simp only [Call.apply, State.collect, hself]
      exact ⟨rfl, rfl, rfl⟩

end Alone

end LimWebserver.TimerManager
