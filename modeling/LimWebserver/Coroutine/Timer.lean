import LimWebserver.Lib.Transition
import Mathlib.Data.List.Sort
import Mathlib.Data.UInt

namespace LimWebserver.TimerManager

open LimWebserver.Lib

/-!
# Coroutine — `Timer` and `TimerManager`

Any number of threads call `cancel`, `refresh` and `reset` on shared timers while the timer thread
collects the expired ones and runs their callbacks.  Every section locked by
`TimerManager::m_mutex`, every read or write of a `Timer` field outside such a section and every
run of a collected callback is one step.

* `Timer` / `State` — the timers by address, and `m_timer_set` as the list that `std::set` keeps
  in the order of `Timer::Comparator`;
* `threadStep`, `listExpiredCallback`, `doFunc` — the steps;
* `Ordered` — the set stays a set;
* `Collected` — what `listExpiredCallback` does to the timers that have expired.
-/

/-- A timer. -/
structure Timer (κ : Type*) where
  m_recurring : Bool
  m_ms : UInt64
  m_next : UInt64
  /-- the callback, `none` for a null `std::function` -/
  m_callback : Option κ

/-- Program points of the threads that use timers; `t` is the timer at work. -/
inductive ThreadPc
  | idle
  /-- `addTimer(ms, ..)`: the timer is built, `addTimer(timer)` comes next -/
  | create (t : Nat)
  /-- `cancelTimer`: `if (!timer->m_callback)` -/
  | cancelTest (t : Nat)
  /-- `cancelTimer`: the locked section -/
  | cancelErase (t : Nat)
  /-- `refreshTimer`: `if (!timer->m_callback)` -/
  | refreshTest (t : Nat)
  /-- `refreshTimer`: the first locked section -/
  | refreshErase (t : Nat)
  /-- `refreshTimer`: read `m_ms` -/
  | refreshRead (t : Nat)
  /-- `refreshTimer`: write `m_next` -/
  | refreshWrite (t : Nat) (next : UInt64)
  /-- `refreshTimer`: the second locked section -/
  | refreshInsert (t : Nat)
  /-- `resetTimer`: `if (ms == timer->m_ms && !from_now)` -/
  | resetSame (t : Nat) (ms : UInt64) (from_now : Bool)
  /-- `resetTimer`: `if (!timer->m_callback)` -/
  | resetTest (t : Nat) (ms : UInt64) (from_now : Bool)
  /-- `resetTimer`: the locked section -/
  | resetErase (t : Nat) (ms : UInt64) (from_now : Bool)
  /-- `resetTimer`: take the time, or read `m_next` -/
  | resetStart (t : Nat) (ms : UInt64) (from_now : Bool)
  /-- `resetTimer`: read `m_ms` -/
  | resetRead (t : Nat) (ms next : UInt64)
  /-- `resetTimer`: write `m_ms` -/
  | resetWriteMs (t : Nat) (ms start : UInt64)
  /-- `resetTimer`: write `m_next` -/
  | resetWriteNext (t : Nat) (ms start : UInt64)
  /-- `resetTimer`: `addTimer(timer)` comes next -/
  | resetInsert (t : Nat)
  /-- `addTimer(timer)`: `if (it == m_timer_set.begin())` -/
  | addTest (t : Nat)
  /-- `addTimer(timer)`: the locked section of `tickle()` -/
  | addTickle (t : Nat)
  deriving DecidableEq, Repr

namespace ThreadPc

/-- The timer that this thread has taken out of the set, or not put there yet. -/
def out : ThreadPc → Option Nat
  | .create t | .refreshRead t | .refreshWrite t _ | .refreshInsert t | .resetStart t _ _
  | .resetRead t _ _ | .resetWriteMs t _ _ | .resetWriteNext t _ _ | .resetInsert t => some t
  | _ => none

/-- The timer whose `m_callback` this thread has found set. -/
def tested : ThreadPc → Option Nat
  | .cancelErase t | .refreshErase t | .resetErase t _ _ => some t
  | .refreshRead t | .refreshWrite t _ | .refreshInsert t | .resetStart t _ _
  | .resetRead t _ _ | .resetWriteMs t _ _ | .resetWriteNext t _ _ | .resetInsert t => some t
  | _ => none

/-- The timer this thread has a pointer to. -/
def about : ThreadPc → Option Nat
  | .idle => none
  | .create t | .cancelTest t | .cancelErase t | .refreshTest t | .refreshErase t
  | .refreshRead t | .refreshWrite t _ | .refreshInsert t | .resetSame t _ _ | .resetTest t _ _
  | .resetErase t _ _ | .resetStart t _ _ | .resetRead t _ _ | .resetWriteMs t _ _
  | .resetWriteNext t _ _ | .resetInsert t | .addTest t | .addTickle t => some t

end ThreadPc

/-- The timers, the manager, the program points of all threads and what has happened so far. -/
structure State (Θ κ : Type*) where
  /-- the timers by address -/
  timer : Nat → Timer κ
  /-- the timer at this address has been built -/
  built : Nat → Bool
  /-- `addTimer(ms, ..)` has returned the timer to its caller -/
  shared : Nat → Bool
  m_timer_set : List Nat
  m_previousTime : UInt64
  thread : Θ → ThreadPc
  /-- the callbacks that the timer thread has collected and not run yet -/
  callback_list : List (Nat × Option κ)
  /-- how often the callback of a timer has been run -/
  ran : Nat → Nat
  /-- how many `cancel()` calls on a timer have returned true -/
  cancelled : Nat → Nat
  /-- `m_timer_set.erase` has been called with `end()` -/
  badErase : Bool

/-- The steps of the threads; `now` is what the clock shows if the step reads it. -/
inductive Action (Θ κ : Type*)
  /-- `addTimer(ms, callback, recurring)` builds its timer at a new address -/
  | addTimer (θ : Θ) (t : Nat) (ms : UInt64) (callback : Option κ) (recurring : Bool) (now : UInt64)
  /-- `timer->cancel()` is called -/
  | cancel (θ : Θ) (t : Nat)
  /-- `timer->refresh()` is called -/
  | refresh (θ : Θ) (t : Nat)
  /-- `timer->reset(ms, from_now)` is called -/
  | reset (θ : Θ) (t : Nat) (ms : UInt64) (from_now : Bool)
  /-- the next step of the call that a thread is in -/
  | run (θ : Θ) (now : UInt64)
  /-- `listExpiredCallback`; its probe timer is built at address `probe` -/
  | listExpiredCallback (now : UInt64) (probe : Nat)
  /-- `doFunc` on the next collected callback -/
  | doFunc
  deriving DecidableEq, Repr

variable {Θ κ : Type*}

/-! ### `m_timer_set` -/

/-- `Timer::Comparator` on two keys. -/
def comparator (lhs rhs : UInt64 × Nat) : Prop :=
  lhs.1 < rhs.1 ∨ (rhs.1 = lhs.1 ∧ lhs.2 < rhs.2)

instance (lhs rhs : UInt64 × Nat) : Decidable (comparator lhs rhs) :=
  inferInstanceAs (Decidable (_ ∨ _))

namespace State

/-- The key of a timer in the set. -/
def key (s : State Θ κ) (t : Nat) : UInt64 × Nat := ((s.timer t).m_next, t)

/-- `v` is not less than `u`, so that `lower_bound` of `u` may stop at `v`. -/
def before (s : State Θ κ) (u v : Nat) : Prop := ¬ comparator (s.key v) (s.key u)

instance (s : State Θ κ) : DecidableRel s.before := fun _ _ => inferInstanceAs (Decidable (¬ _))

/-- `m_timer_set.find(timer)`: the element equivalent to the timer. -/
def find (s : State Θ κ) (t : Nat) : Option Nat :=
  s.m_timer_set.find? fun u => !comparator (s.key u) (s.key t) && !comparator (s.key t) (s.key u)

/-- `m_timer_set.insert(timer)`: nothing happens when an equivalent element is there. -/
def insert (s : State Θ κ) (t : Nat) : State Θ κ :=
  match s.find t with
  | some _ => s
  | none => { s with m_timer_set := s.m_timer_set.orderedInsert s.before t }

/-- `m_timer_set.erase(it)` after `it = m_timer_set.find(timer)`. -/
def erase (s : State Θ κ) (t : Nat) : State Θ κ :=
  match s.find t with
  | some u => { s with m_timer_set := s.m_timer_set.erase u }
  | none => { s with badErase := true }

/-- Replace the timer at address `t`. -/
def setTimer (s : State Θ κ) (t : Nat) (x : Timer κ) : State Θ κ :=
  { s with timer := Function.update s.timer t x }

/-! ### The timer thread -/

/-- `detectClockRollover(now_ms)`. -/
def detectClockRollover (s : State Θ κ) (now : UInt64) : Bool :=
  -- the subtraction is that of `uint64_t`: it wraps in the first hour of the clock
  now < s.m_previousTime && now < s.m_previousTime - 60 * 60 * 1000

/-- One round of the loop over the expired timers: collect the callback, and put a recurring
    timer back. -/
def expire (now : UInt64) (s : State Θ κ) (t : Nat) : State Θ κ :=
  -- the callback is collected as it is, also when it is empty
  let s' := { s with callback_list := s.callback_list ++ [(t, (s.timer t).m_callback)] }
  if (s.timer t).m_recurring then
    (s'.setTimer t { s.timer t with m_next := now + (s.timer t).m_ms }).insert t
  else s'.setTimer t { s.timer t with m_callback := none }

/-- The iterator up to which the timers have expired, as the rest of the set from there on:
    `lower_bound` of the probe timer, moved over the timers that are due now. -/
def unexpired (s : State Θ κ) (now : UInt64) (probe : Nat) : List Nat :=
  (s.m_timer_set.dropWhile fun t => comparator (s.key t) (now, probe)).dropWhile
    fun t => (s.timer t).m_next = now

/-- `listExpiredCallback(callback_list)`. -/
def listExpiredCallback (s : State Θ κ) (now : UInt64) (probe : Nat) : State Θ κ :=
  match s.m_timer_set with
  | [] => s
  | begin_ :: _ =>
    let rollover := s.detectClockRollover now
    let s' := { s with m_previousTime := now }
    if !rollover && now < (s.timer begin_).m_next then s'
    else
      -- after a rollover every timer counts as expired
      let rest := if rollover then [] else s.unexpired now probe
      let expired := s.m_timer_set.take (s.m_timer_set.length - rest.length)
      expired.foldl (expire now) { s' with m_timer_set := rest }

/-- `doFunc(callback)` on the first collected callback; an empty one throws and is caught. -/
def doFunc (s : State Θ κ) : Option (State Θ κ) :=
  match s.callback_list with
  | [] => none
  | (t, callback) :: rest => some { s with
      callback_list := rest
      ran := if callback.isSome then Function.update s.ran t (s.ran t + 1) else s.ran }

end State

/-! ### The threads -/

section
variable [DecidableEq Θ]

/-- Move thread `θ` to program point `pc`. -/
def State.goto (s : State Θ κ) (θ : Θ) (pc : ThreadPc) : State Θ κ :=
  { s with thread := Function.update s.thread θ pc }

/-- The next step of thread `θ`, which stands at the given program point. -/
def threadStep (s : State Θ κ) (θ : Θ) (now : UInt64) : ThreadPc → Option (State Θ κ)
  | .idle => none
  | .create t => some ((s.insert t).goto θ (.addTest t))
  | .cancelTest t =>
    some (s.goto θ (if (s.timer t).m_callback.isSome then .cancelErase t else .idle))
  -- `cancel()` does not look whether `find` has found its timer
  | .cancelErase t => some { ((s.setTimer t { s.timer t with m_callback := none }).erase t).goto θ
        .idle with cancelled := Function.update s.cancelled t (s.cancelled t + 1) }
  | .refreshTest t =>
    some (s.goto θ (if (s.timer t).m_callback.isSome then .refreshErase t else .idle))
  | .refreshErase t =>
    match s.find t with
    | none => some (s.goto θ .idle)
    | some _ => some ((s.erase t).goto θ (.refreshRead t))
  | .refreshRead t => some (s.goto θ (.refreshWrite t (now + (s.timer t).m_ms)))
  | .refreshWrite t next =>
    some ((s.setTimer t { s.timer t with m_next := next }).goto θ (.refreshInsert t))
  | .refreshInsert t => some ((s.insert t).goto θ .idle)
  | .resetSame t ms from_now =>
    some (s.goto θ (if ms = (s.timer t).m_ms && !from_now then .idle else .resetTest t ms from_now))
  | .resetTest t ms from_now =>
    some (s.goto θ (if (s.timer t).m_callback.isSome then .resetErase t ms from_now else .idle))
  | .resetErase t ms from_now =>
    match s.find t with
    | none => some (s.goto θ .idle)
    | some _ => some ((s.erase t).goto θ (.resetStart t ms from_now))
  | .resetStart t ms from_now =>
    some (s.goto θ (if from_now then .resetWriteMs t ms now
      else .resetRead t ms (s.timer t).m_next))
  | .resetRead t ms next => some (s.goto θ (.resetWriteMs t ms (next - (s.timer t).m_ms)))
  | .resetWriteMs t ms start =>
    some ((s.setTimer t { s.timer t with m_ms := ms }).goto θ (.resetWriteNext t ms start))
  | .resetWriteNext t ms start =>
    some ((s.setTimer t { s.timer t with m_next := start + ms }).goto θ (.resetInsert t))
  | .resetInsert t => some ((s.insert t).goto θ (.addTest t))
  | .addTest t =>
    if s.m_timer_set.head? = some t then some (s.goto θ (.addTickle t))
    else some { s.goto θ .idle with shared := Function.update s.shared t true }
  | .addTickle t => some { s.goto θ .idle with shared := Function.update s.shared t true }

/-- One step of the system. -/
def step (s : State Θ κ) : Action Θ κ → Option (State Θ κ)
  | .addTimer θ t ms callback recurring now =>
    if s.thread θ = .idle ∧ s.built t = false then
      some { (s.setTimer t ⟨recurring, ms, now + ms, callback⟩).goto θ (.create t) with
        built := Function.update s.built t true }
    else none
  | .cancel θ t =>
    if s.thread θ = .idle ∧ s.shared t = true then some (s.goto θ (.cancelTest t)) else none
  | .refresh θ t =>
    if s.thread θ = .idle ∧ s.shared t = true then some (s.goto θ (.refreshTest t)) else none
  | .reset θ t ms from_now =>
    if s.thread θ = .idle ∧ s.shared t = true then some (s.goto θ (.resetSame t ms from_now))
    else none
  | .run θ now => threadStep s θ now (s.thread θ)
  | .listExpiredCallback now probe =>
    -- the timer thread runs what it has collected before it collects again
    match s.callback_list with
    | [] => some (s.listExpiredCallback now probe)
    | _ :: _ => none
  | .doFunc => s.doFunc

/-- A manager without timers. -/
def initial : State Θ κ where
  timer := fun _ => ⟨false, 0, 0, none⟩
  built := fun _ => false
  shared := fun _ => false
  m_timer_set := []
  m_previousTime := 0
  thread := fun _ => .idle
  callback_list := []
  ran := fun _ => 0
  cancelled := fun _ => 0
  badErase := false

/-- The timer system. -/
def system (Θ κ : Type*) [DecidableEq Θ] : LTS (State Θ κ) (Action Θ κ) where
  init := fun s => s = initial
  step := step

end

/-! ### The set stays a set -/

section
variable {s : State Θ κ} {t u : Nat}

theorem before_or_before (s : State Θ κ) (u v : Nat) : s.before u v ∨ s.before v u := by
  simp only [State.before, State.key, comparator, UInt64.lt_iff_toNat_lt, ← UInt64.toNat_inj]
  omega

theorem before_trans {v : Nat} (h : s.before t u) (h' : s.before u v) : s.before t v := by
  simp only [State.before, State.key, comparator, UInt64.lt_iff_toNat_lt,
    ← UInt64.toNat_inj] at h h' ⊢
  omega

/-- Equivalent keys belong to one timer. -/
theorem before_antisymm (h : s.before t u) (h' : s.before u t) : t = u := by
  simp only [State.before, State.key, comparator, UInt64.lt_iff_toNat_lt,
    ← UInt64.toNat_inj] at h h'
  omega

instance (s : State Θ κ) : Std.Total s.before := ⟨before_or_before s⟩
instance (s : State Θ κ) : IsTrans Nat s.before := ⟨fun _ _ _ => before_trans⟩

/-- What `find` looks for is the timer itself. -/
theorem equivalent_iff (s : State Θ κ) (t u : Nat) :
    (!comparator (s.key u) (s.key t) && !comparator (s.key t) (s.key u)) = true ↔ u = t := by
  simp only [Bool.and_eq_true, Bool.not_eq_true', decide_eq_false_iff_not]
  refine ⟨fun h => before_antisymm h.2 h.1, ?_⟩
  rintro rfl
  have h := (before_or_before s u u).elim id id
  exact ⟨h, h⟩

theorem find_of_mem (h : t ∈ s.m_timer_set) : s.find t = some t := by
  have hsome : (s.find t).isSome := List.find?_isSome.mpr ⟨t, h, (equivalent_iff s t t).mpr rfl⟩
  obtain ⟨u, hu⟩ := Option.isSome_iff_exists.mp hsome
  have heq := List.find?_some (l := s.m_timer_set) hu
  rw [hu, (equivalent_iff s t u).mp heq]

theorem find_of_notMem (h : t ∉ s.m_timer_set) : s.find t = none := by
  refine List.find?_eq_none.mpr fun u hu => ?_
  rw [equivalent_iff]
  rintro rfl
  exact h hu

theorem mem_of_find {u : Nat} (h : s.find t = some u) : t ∈ s.m_timer_set := by
  by_contra hne
  rw [find_of_notMem hne] at h
  cases h

theorem erase_of_mem (h : t ∈ s.m_timer_set) :
    s.erase t = { s with m_timer_set := s.m_timer_set.erase t } := by
  rw [State.erase, find_of_mem h]

theorem erase_of_notMem (h : t ∉ s.m_timer_set) : s.erase t = { s with badErase := true } := by
  rw [State.erase, find_of_notMem h]

/-- What `erase` changes. -/
theorem erase_eq (s : State Θ κ) (t : Nat) : s.erase t =
    { s with m_timer_set := s.m_timer_set.erase t, badErase := (s.erase t).badErase } := by
  by_cases ht : t ∈ s.m_timer_set
  · rw [erase_of_mem ht]
  · rw [erase_of_notMem ht, List.erase_of_not_mem ht]

theorem insert_of_notMem (h : t ∉ s.m_timer_set) :
    s.insert t = { s with m_timer_set := s.m_timer_set.orderedInsert s.before t } := by
  rw [State.insert, find_of_notMem h]

/-- `m_timer_set` is what a `std::set` is: free of duplicates and in order. -/
structure Ordered (s : State Θ κ) : Prop where
  nodup : s.m_timer_set.Nodup
  ordered : s.m_timer_set.Pairwise s.before

/-- The order looks at `m_next` only. -/
theorem Ordered.next {s' : State Θ κ} (h : Ordered s)
    (hsub : s'.m_timer_set.Sublist s.m_timer_set)
    (hnext : ∀ t ∈ s'.m_timer_set, (s'.timer t).m_next = (s.timer t).m_next) : Ordered s' := by
  refine ⟨h.nodup.sublist hsub, (h.ordered.sublist hsub).imp_of_mem fun hu hv huv => ?_⟩
  simpa only [State.before, State.key, hnext _ hu, hnext _ hv] using huv

/-- Taking timers out keeps the order, and so does a change to a timer outside the set. -/
theorem Ordered.sublist {s' : State Θ κ} (h : Ordered s)
    (hsub : s'.m_timer_set.Sublist s.m_timer_set)
    (hkey : ∀ t ∈ s'.m_timer_set, s'.timer t = s.timer t) : Ordered s' :=
  h.next hsub fun t ht => by rw [hkey t ht]

/-- A timer outside the set may change, its key included. -/
theorem Ordered.setTimer (h : Ordered s) (ht : t ∉ s.m_timer_set) (x : Timer κ) :
    Ordered (s.setTimer t x) := by
  refine h.sublist (List.Sublist.refl _) fun u hu => ?_
  have hne : u ≠ t := by rintro rfl; exact ht hu
  exact Function.update_of_ne hne _ _

/-- `insert` keeps the order. -/
theorem Ordered.insert (h : Ordered s) (t : Nat) : Ordered (s.insert t) := by
  by_cases ht : t ∈ s.m_timer_set
  · rw [State.insert, find_of_mem ht]; exact h
  · rw [insert_of_notMem ht]
    refine ⟨?_, h.ordered.orderedInsert _ _⟩
    exact (List.perm_orderedInsert s.before t _).nodup_iff.mpr (List.nodup_cons.mpr ⟨ht, h.nodup⟩)

@[simp] theorem mem_insert : u ∈ (s.insert t).m_timer_set ↔ u = t ∨ u ∈ s.m_timer_set := by
  by_cases ht : t ∈ s.m_timer_set
  · rw [State.insert, find_of_mem ht]
    exact ⟨.inr, fun h => h.elim (fun h => h ▸ ht) id⟩
  · rw [insert_of_notMem ht]
    exact List.mem_orderedInsert _

/-- `insert` changes the set only. -/
theorem insert_eq (s : State Θ κ) (t : Nat) :
    s.insert t = { s with m_timer_set := (s.insert t).m_timer_set } := by
  rw [State.insert]
  split <;> rfl

@[simp] theorem insert_timer : (s.insert t).timer = s.timer := by rw [insert_eq]
@[simp] theorem insert_built : (s.insert t).built = s.built := by rw [insert_eq]
@[simp] theorem insert_shared : (s.insert t).shared = s.shared := by rw [insert_eq]
@[simp] theorem insert_thread : (s.insert t).thread = s.thread := by rw [insert_eq]
@[simp] theorem insert_list : (s.insert t).callback_list = s.callback_list := by rw [insert_eq]
@[simp] theorem insert_ran : (s.insert t).ran = s.ran := by rw [insert_eq]
@[simp] theorem insert_cancelled : (s.insert t).cancelled = s.cancelled := by rw [insert_eq]
@[simp] theorem insert_badErase : (s.insert t).badErase = s.badErase := by rw [insert_eq]

end

/-! ### What `listExpiredCallback` does -/

/-- The state after the timers `ts` have been collected. -/
structure Collected (ts : List Nat) (s s' : State Θ κ) : Prop where
  thread : s'.thread = s.thread
  built : s'.built = s.built
  shared : s'.shared = s.shared
  ran : s'.ran = s.ran
  cancelled : s'.cancelled = s.cancelled
  badErase : s'.badErase = s.badErase
  /-- the callbacks are collected in the order of the set -/
  list : s'.callback_list = s.callback_list ++ ts.map fun t => (t, (s.timer t).m_callback)
  recurring : ∀ t, (s'.timer t).m_recurring = (s.timer t).m_recurring
  /-- a one-shot timer loses its callback -/
  callback : ∀ t, (s'.timer t).m_callback =
    if t ∈ ts ∧ (s.timer t).m_recurring = false then none else (s.timer t).m_callback
  /-- a recurring timer goes back into the set -/
  mem : ∀ t, t ∈ s'.m_timer_set ↔
    t ∈ s.m_timer_set ∨ (t ∈ ts ∧ (s.timer t).m_recurring = true)
  ordered : Ordered s'

theorem collected_nil {s : State Θ κ} (h : Ordered s) : Collected [] s s := by
  constructor <;> simp [h]

/-- One round of the loop. -/
theorem collected_expire {s : State Θ κ} {t : Nat} (now : UInt64) (h : Ordered s)
    (ht : t ∉ s.m_timer_set) : Collected [t] s (s.expire now t) := by
  have hset : ∀ l x, Ordered ({ s with callback_list := l }.setTimer t x) := fun l x =>
    ⟨(h.setTimer ht x).nodup, (h.setTimer ht x).ordered⟩
  unfold State.expire
  cases hr : (s.timer t).m_recurring with
  | true =>
    simp only [if_true]
    refine ⟨?_, ?_, ?_, ?_, ?_, ?_, ?_, fun u => ?_, fun u => ?_, fun u => ?_, (hset _ _).insert t⟩
    case refine_8 | refine_9 | refine_10 =>
      rcases eq_or_ne u t with rfl | hne <;> simp [State.setTimer, *]
    all_goals simp [State.setTimer]
  | false =>
    simp only [Bool.false_eq_true, if_false]
    refine ⟨rfl, rfl, rfl, rfl, rfl, rfl, rfl, fun u => ?_, fun u => ?_, fun u => ?_, ?_⟩
    · rcases eq_or_ne u t with rfl | hne <;> simp [State.setTimer, *]
    · rcases eq_or_ne u t with rfl | hne <;> simp [State.setTimer, *]
    · rcases eq_or_ne u t with rfl | hne <;> simp [State.setTimer, *]
    · exact hset _ _

/-- Two stretches of the loop, about different timers. -/
theorem Collected.append {ts us : List Nat} {s s' s'' : State Θ κ} (h : Collected ts s s')
    (h' : Collected us s' s'') (hd : ∀ t ∈ us, t ∉ ts) : Collected (ts ++ us) s s'' := by
  refine ⟨h'.thread.trans h.thread, h'.built.trans h.built, h'.shared.trans h.shared,
    h'.ran.trans h.ran, h'.cancelled.trans h.cancelled, h'.badErase.trans h.badErase, ?_,
    fun t => (h'.recurring t).trans (h.recurring t), fun t => ?_, fun t => ?_, h'.ordered⟩
  · rw [h'.list, h.list, List.map_append, List.append_assoc]
    congr 2
    apply List.map_congr_left
    intro t ht
    rw [h.callback, if_neg fun hts => hd t ht hts.1]
  · rw [h'.callback, h.callback, h.recurring]
    by_cases hts : t ∈ ts <;> by_cases hus : t ∈ us <;> simp only [hts, hus] <;> grind
  · rw [h'.mem, h.mem, h.recurring, List.mem_append]
    tauto

/-- The whole loop over the expired timers. -/
theorem collected_foldl (now : UInt64) : ∀ (ts : List Nat) (s : State Θ κ), Ordered s → ts.Nodup →
    (∀ t ∈ ts, t ∉ s.m_timer_set) → Collected ts s (ts.foldl (State.expire now) s)
  | [], s, h, _, _ => collected_nil h
  | t :: ts, s, h, hnd, hd => by
    obtain ⟨ht, hnd⟩ := List.nodup_cons.mp hnd
    have h1 := collected_expire now h (hd t List.mem_cons_self)
    have hmem : ∀ u ∈ ts, u ∉ (s.expire now t).m_timer_set := by
      intro u hu hin
      rcases (h1.mem u).mp hin with hs | ⟨hut, -⟩
      · exact hd u (List.mem_cons_of_mem t hu) hs
      · rw [List.mem_singleton] at hut
        exact ht (hut ▸ hu)
    apply h1.append (collected_foldl now ts _ h1.ordered hnd hmem)
    intro u hu hut
    rw [List.mem_singleton] at hut
    exact ht (hut ▸ hu)

/-- The set from the first unexpired timer on is a final stretch of it. -/
theorem unexpired_suffix (s : State Θ κ) (now : UInt64) (probe : Nat) :
    s.unexpired now probe <:+ s.m_timer_set :=
  (List.dropWhile_suffix _).trans (List.dropWhile_suffix _)

/-- **`listExpiredCallback`.** It takes some timers out of the set, all different, collects their
    callbacks and treats them as the loop does. -/
theorem collected_listExpiredCallback {s : State Θ κ} (now : UInt64) (probe : Nat)
    (h : Ordered s) :
    ∃ ts rest time, s.m_timer_set = ts ++ rest ∧
      Collected ts { s with m_timer_set := rest, m_previousTime := time }
        (s.listExpiredCallback now probe) := by
  unfold State.listExpiredCallback
  split
  · exact ⟨[], s.m_timer_set, s.m_previousTime, rfl, collected_nil h⟩
  · dsimp only
    split
    · exact ⟨[], s.m_timer_set, now, rfl, collected_nil ⟨h.nodup, h.ordered⟩⟩
    · generalize hrest : (if s.detectClockRollover now = true then [] else s.unexpired now probe)
        = rest
      have hsuf : rest <:+ s.m_timer_set := by
        rw [← hrest]
        split
        · exact List.nil_suffix
        · exact unexpired_suffix s now probe
      obtain ⟨ts, hts⟩ := hsuf
      have htake : s.m_timer_set.take (s.m_timer_set.length - rest.length) = ts := by
        simp [← hts]
      have hnd := h.nodup
      rw [← hts, List.nodup_append] at hnd
      refine ⟨ts, rest, now, hts.symm, ?_⟩
      rw [htake]
      refine collected_foldl now ts _ ?_ hnd.1 fun t ht hr => hnd.2.2 t ht t hr rfl
      exact h.sublist (hts ▸ List.sublist_append_right ts rest) fun _ _ => rfl

end LimWebserver.TimerManager
