import LimWebserver.Coroutine.TimerWait

namespace LimWebserver.TimerManager

open LimWebserver.Lib

/-!
# Coroutine — `TimerManager::run` against the other threads

The timer thread sleeps until the first deadline that it has seen, and `addTimer` wakes it when the
new timer goes first.  The section of `run` that computes the time and begins to wait is one step,
and the wait ends at any time.

* `LoopPc`, `Run`, `runStep` — the loop of the timer thread beside the calls of the other threads,
  with a clock that never goes back;
* `InTime` — what the wake-ups are for: no oversleeping;
* `refresh_oversleeps` — `refreshTimer` puts a timer first and wakes nobody;
* `Soon` — no deadline is farther away than an `int` can say; `Announced` — the condition on the
  steps that leaves the oversleeping out; `announced_inTime` — every such run.
-/

variable {Θ κ : Type*}

/-- Where the timer thread is. -/
inductive LoopPc
  /-- the section of `run` that calls `getNextExpire` and `waitTime` -/
  | top
  /-- in `waitTime`, until `wakeUp`; `signalled` once `notify_one` has chosen it -/
  | waiting (wakeUp : Int) (signalled : Bool)
  /-- `listExpiredCallback(callback_list)` -/
  | collect
  /-- the loop over `callback_list` -/
  | callbacks
  deriving DecidableEq, Repr

/-- `m_cond.notify_one()` -/
def LoopPc.notify : LoopPc → LoopPc
  | .waiting wakeUp _ => .waiting wakeUp true
  | pc => pc

/-- The timers with the loop of the timer thread. -/
structure Run (Θ κ : Type*) where
  timers : State Θ κ
  run : LoopPc
  /-- what the clock has shown last -/
  clock : UInt64

/-- The steps. -/
inductive RunAction (Θ κ : Type*)
  /-- a step of a call -/
  | call (a : Action Θ κ)
  /-- the next step of the timer thread -/
  | loop (now : UInt64) (probe : Nat)
  deriving DecidableEq, Repr

/-- What the clock shows in a step that reads it. -/
def Action.now? : Action Θ κ → Option UInt64
  | .addTimer _ _ _ _ _ now | .run _ now | .listExpiredCallback now _ => some now
  | _ => none

/-- The thread is about to call `tickle()`. -/
def ThreadPc.tickles : ThreadPc → Bool
  | .addTickle _ => true
  | _ => false

/-- The deadline before which a blocked timer thread does not wake up by itself: it waits, has not
    been signalled, and its time has not come. -/
def Run.blocked (r : Run Θ κ) : Option Int :=
  match r.run with
  | .waiting wakeUp false => if r.clock.toNat < wakeUp then some wakeUp else none
  | _ => none

/-- The next step of the timer thread. -/
def loopStep (r : Run Θ κ) (now : UInt64) (probe : Nat) : LoopPc → Run Θ κ
  | .top => { r with
      run := .waiting (now.toNat + (r.timers.newTimeOut now).toInt) false
      clock := now }
  -- by a signal, by the end of the time or for no reason
  | .waiting _ _ => { r with run := .collect, clock := now }
  | .collect => { r with
      timers := r.timers.listExpiredCallback now probe
      run := .callbacks
      clock := now }
  | .callbacks =>
    match r.timers.doFunc with
    | some timers => { r with timers := timers, clock := now }
    | none => { r with run := .top, clock := now }

section
variable [DecidableEq Θ]

/-- A step of a call; `listExpiredCallback` and `doFunc` are the timer thread's. -/
def callStep (r : Run Θ κ) : Action Θ κ → Option (Run Θ κ)
  | .listExpiredCallback _ _ | .doFunc => none
  | .run θ now => (step r.timers (.run θ now)).map fun timers => { r with
      timers := timers
      clock := now
      run := if (r.timers.thread θ).tickles then r.run.notify else r.run }
  | a => (step r.timers a).map fun timers => { r with
      timers := timers
      clock := a.now?.getD r.clock }

/-- One step of the system; the clock never goes back. -/
def runStep (r : Run Θ κ) : RunAction Θ κ → Option (Run Θ κ)
  | .call a => if r.clock ≤ a.now?.getD r.clock then callStep r a else none
  | .loop now probe => if r.clock ≤ now then some (loopStep r now probe r.run) else none

/-- The timer thread has just started. -/
def Run.initial : Run Θ κ := ⟨TimerManager.initial, .top, 0⟩

/-- The timers with their thread. -/
def runSystem (Θ κ : Type*) [DecidableEq Θ] : LTS (Run Θ κ) (RunAction Θ κ) where
  init := fun r => r = .initial
  step := runStep

end

/-- **No oversleeping.** When no call is half-way and the timer thread is blocked, it wakes up at
    the first deadline or before. -/
def InTime (r : Run Θ κ) : Prop :=
  ∀ wakeUp ∈ r.blocked, (∀ θ, r.timers.thread θ = .idle) →
    ∀ first ∈ r.timers.m_timer_set.head?, wakeUp ≤ (r.timers.timer first).m_next.toNat

/-- The first deadline is less than `2 ^ 31` ms away when the timer thread goes to sleep. -/
def Soon (r : Run Θ κ) : RunAction Θ κ → Prop
  | .loop now _ => r.run = .top → ∀ first ∈ r.timers.m_timer_set.head?,
      (r.timers.timer first).m_next.toNat < now.toNat + 2 ^ 31
  | _ => True

instance (r : Run Θ κ) : ∀ a, Decidable (Soon r a)
  | .loop _ _ => inferInstanceAs (Decidable (_ → ∀ first ∈ r.timers.m_timer_set.head?, _))
  | .call _ => .isTrue trivial

/-- The timer thread has gone to sleep for a second while `refreshTimer` has the only timer, of
    10 ms, out of the set. -/
def refreshed : List (RunAction Unit Unit) :=
  [.call (.addTimer () 1 10 (some ()) false 0), .call (.run () 0), .call (.run () 0),
    .call (.run () 0), .call (.refresh () 1), .call (.run () 0), .call (.run () 0), .loop 0 9,
    .call (.run () 0), .call (.run () 0), .call (.run () 0)]

/-- **Slept through.** After `refreshed` all calls have returned, and the timer thread sleeps until
    1000 although the first timer is due at 10. -/
theorem refresh_oversleeps :
    ¬ ∀ r : Run Unit Unit, (runSystem Unit Unit).ReachableUnder Soon r → InTime r := by
  intro h
  have hr : (runSystem Unit Unit).exec .initial refreshed = some _ := rfl
  have hin := h _ (LTS.ReachableUnder.exec (.init rfl) (by decide) hr)
  exact absurd (hin 1000 rfl (fun _ => rfl) 1 rfl) (by decide)

/-- What `Announced` says of the next step of a call. -/
def AnnouncedAt (r : Run Θ κ) : ThreadPc → Prop
  | .refreshInsert t => ∀ wakeUp ∈ r.blocked,
      (∀ first ∈ r.timers.m_timer_set.head?, r.timers.before t first) →
        wakeUp ≤ (r.timers.timer t).m_next.toNat ∨ ∃ θ, (r.timers.thread θ).tickles = true
  | .cancelErase t | .refreshErase t | .resetErase t _ _ =>
    r.blocked.isSome → t ∈ r.timers.m_timer_set.head? → ∀ θ, r.timers.thread θ ≠ .addTest t
  | _ => True

/-- The condition on the steps while the timer thread is blocked: a timer that `refreshTimer` puts
    back before the first one has no deadline before the wake-up, unless a `tickle()` is due; and no
    call erases the first timer between the `insert` of another call and its comparison with
    `begin()`. -/
def Announced (r : Run Θ κ) : RunAction Θ κ → Prop
  | .call (.run θ _) => AnnouncedAt r (r.timers.thread θ)
  | _ => True

instance [Fintype Θ] (r : Run Θ κ) (pc : ThreadPc) : Decidable (AnnouncedAt r pc) :=
  match pc with
  | .refreshInsert _ => inferInstanceAs (Decidable (∀ _ ∈ r.blocked, _ → _ ∨ _))
  | .cancelErase _ | .refreshErase _ | .resetErase _ _ _ =>
    inferInstanceAs (Decidable (_ → _ ∈ r.timers.m_timer_set.head? → ∀ _, _ ≠ _))
  | .idle | .create _ | .cancelTest _ | .refreshTest _ | .refreshRead _ | .refreshWrite _ _
  | .resetSame _ _ _ | .resetTest _ _ _ | .resetStart _ _ _ | .resetRead _ _ _
  | .resetWriteMs _ _ _ | .resetWriteNext _ _ _ | .resetInsert _ | .addTest _ | .addTickle _ =>
    .isTrue trivial

instance [Fintype Θ] (r : Run Θ κ) : ∀ a, Decidable (Announced r a)
  | .call (.run _ _) => inferInstanceAs (Decidable (AnnouncedAt r _))
  | .call (.addTimer _ _ _ _ _ _) | .call (.cancel _ _) | .call (.refresh _ _)
  | .call (.reset _ _ _ _) | .call (.listExpiredCallback _ _) | .call .doFunc | .loop _ _ =>
    .isTrue trivial

/-! ### The first timer of the set -/

section Head

variable {s : State Θ κ} {t f : Nat}

/-- After `insert` the first timer is the one before, or the new one goes before it. -/
theorem head_insert (ht : t ∉ s.m_timer_set) (hf : f ∈ (s.insert t).m_timer_set.head?) :
    f ∈ s.m_timer_set.head? ∨ (f = t ∧ ∀ first ∈ s.m_timer_set.head?, s.before t first) := by
  rw [insert_of_notMem ht] at hf
  cases hset : s.m_timer_set with
  | nil =>
    rw [hset] at hf
    exact .inr ⟨by simpa [eq_comm] using hf, by simp⟩
  | cons first ts =>
    simp only [hset, List.orderedInsert_cons] at hf
    split at hf
    · rename_i hb
      exact .inr ⟨by simpa [eq_comm] using hf, by simpa using hb⟩
    · exact .inl hf

/-- After `erase` the first timer is the one before, unless this one was erased. -/
theorem head_erase (hf : f ∈ (s.m_timer_set.erase t).head?) :
    f ∈ s.m_timer_set.head? ∨ (t ∈ s.m_timer_set.head? ∧ f ∈ s.m_timer_set) := by
  have hmem : f ∈ s.m_timer_set := List.mem_of_mem_erase (List.mem_of_mem_head? hf)
  cases hset : s.m_timer_set with
  | nil => rw [hset] at hf; exact .inl hf
  | cons first ts =>
    rw [hset, List.erase_cons] at hf
    split at hf
    · rename_i heq
      exact .inr ⟨by simpa using heq, hset ▸ hmem⟩
    · exact .inl hf

/-- The first timer of a set in order has the first deadline. -/
theorem Ordered.head_le (h : Ordered s) (hf : f ∈ s.m_timer_set.head?) (ht : t ∈ s.m_timer_set) :
    (s.timer f).m_next.toNat ≤ (s.timer t).m_next.toNat := by
  cases hset : s.m_timer_set with
  | nil => rw [hset] at ht; exact absurd ht List.not_mem_nil
  | cons first ts =>
    rw [hset, List.head?_cons, Option.mem_def, Option.some.injEq] at hf
    exact hf ▸ h.first_le hset ht

end Head

/-! ### Who will wake the timer thread -/

theorem mem_blocked {r : Run Θ κ} {wakeUp : Int} :
    wakeUp ∈ r.blocked ↔ r.run = .waiting wakeUp false ∧ r.clock.toNat < wakeUp := by
  unfold Run.blocked
  split
  · rename_i w hrun
    simp only [hrun, LoopPc.waiting.injEq, and_true, Option.mem_def]
    split
    · rename_i hlt
      rw [Option.some.injEq]
      exact ⟨fun h => ⟨h, h ▸ hlt⟩, And.left⟩
    · rename_i hlt
      apply iff_of_false (by simp)
      rintro ⟨rfl, h⟩
      exact hlt h
  · rename_i hrun
    exact iff_of_false (by simp) fun h => hrun wakeUp h.1

/-- The first deadline is not before `wakeUp`, or a thread is about to call `tickle()` or about to
    find that it has put the first timer there. -/
def Held (s : State Θ κ) (wakeUp : Int) : Prop :=
  ∀ first ∈ s.m_timer_set.head?, wakeUp ≤ (s.timer first).m_next.toNat ∨
    ∃ θ, (s.thread θ).tickles = true ∨ s.thread θ = .addTest first

/-- The invariant of the timer thread. -/
structure RunInv (r : Run Θ κ) : Prop where
  apart : Apart r.timers
  held : ∀ wakeUp ∈ r.blocked, Held r.timers wakeUp

theorem RunInv.inTime {r : Run Θ κ} (h : RunInv r) : InTime r := by
  intro wakeUp hw hidle first hf
  rcases h.held wakeUp hw first hf with hle | ⟨θ, ht | ht⟩
  · exact hle
  · rw [hidle θ] at ht; cases ht
  · rw [hidle θ] at ht; cases ht

section
variable [DecidableEq Θ] {s s' : State Θ κ} {θ : Θ} {pc : ThreadPc} {wakeUp : Int}

/-- A step of thread `θ` to program point `pc` after which a new first timer is late enough or
    announced. -/
theorem Held.step (h : Held s wakeUp) (θ : Θ) (pc : ThreadPc)
    (hthread : s'.thread = Function.update s.thread θ pc) (htickle : (s.thread θ).tickles = false)
    (hleave : ∀ f, s.thread θ = .addTest f → f ∈ s.m_timer_set.head? → pc.tickles = true)
    (hhead : ∀ f ∈ s'.m_timer_set.head?,
      (f ∈ s.m_timer_set.head? ∧ (s'.timer f).m_next = (s.timer f).m_next) ∨
      wakeUp ≤ (s'.timer f).m_next.toNat ∨ pc = .addTest f ∨
      ∃ θ', (s.thread θ').tickles = true) : Held s' wakeUp := by
  intro f hf
  have hself : s'.thread θ = pc := by rw [hthread, Function.update_self]
  have hother : ∀ θ', θ' ≠ θ → s'.thread θ' = s.thread θ' := fun θ' hne => by
    rw [hthread, Function.update_of_ne hne]
  -- a `tickle()` that is due is not that of `θ`
  have hdue : (∃ θ', (s.thread θ').tickles = true) → ∃ θ', (s'.thread θ').tickles = true := by
    rintro ⟨θ', hθ'⟩
    refine ⟨θ', ?_⟩
    rw [hother θ' fun heq => ?_]
    · exact hθ'
    · rw [heq, htickle] at hθ'; cases hθ'
  rcases hhead f hf with ⟨hf', hnext⟩ | hle | rfl | hd
  · rcases h f hf' with hle | ⟨θ', ht | ht⟩
    · exact .inl (hnext ▸ hle)
    · exact .inr ((hdue ⟨θ', ht⟩).imp fun _ => .inl)
    · rcases eq_or_ne θ' θ with rfl | hne
      · exact .inr ⟨θ', .inl (hself ▸ hleave f ht hf')⟩
      · exact .inr ⟨θ', .inr ((hother θ' hne).trans ht)⟩
  · exact .inl hle
  · exact .inr ⟨θ, .inr hself⟩
  · exact .inr ((hdue hd).imp fun _ => .inl)

/-- A step that moves `θ` only. -/
theorem Held.goto (h : Held s wakeUp) (htickle : (s.thread θ).tickles = false)
    (hleave : ∀ f, s.thread θ = .addTest f → f ∈ s.m_timer_set.head? → pc.tickles = true) :
    Held (s.goto θ pc) wakeUp :=
  h.step θ _ rfl htickle hleave fun _ hf => .inl ⟨hf, rfl⟩

/-- A step that writes a timer outside the set. -/
theorem Held.write {t : Nat} (h : Held s wakeUp) (ht : t ∉ s.m_timer_set) (x : Timer κ)
    (htickle : (s.thread θ).tickles = false) (hleave : ∀ f, s.thread θ ≠ .addTest f) :
    Held ((s.setTimer t x).goto θ pc) wakeUp := by
  refine h.step θ _ rfl htickle (fun f hf => absurd hf (hleave f)) fun f hf => .inl ⟨hf, ?_⟩
  have hne : f ≠ t := by
    rintro rfl
    exact ht (List.mem_of_mem_head? hf)
  show (Function.update s.timer t x f).m_next = _
  rw [Function.update_of_ne hne]

/-- A step that puts a timer into the set. -/
theorem Held.put {t : Nat} (h : Held s wakeUp) (ht : t ∉ s.m_timer_set)
    (htickle : (s.thread θ).tickles = false) (hleave : ∀ f, s.thread θ ≠ .addTest f)
    (hfirst : (∀ first ∈ s.m_timer_set.head?, s.before t first) →
      wakeUp ≤ (s.timer t).m_next.toNat ∨ pc = .addTest t ∨ ∃ θ', (s.thread θ').tickles = true) :
    Held ((s.insert t).goto θ pc) wakeUp := by
  refine h.step θ pc (by simp [State.goto]) htickle (fun f hf => absurd hf (hleave f))
    fun f hf => ?_
  have hnext : ∀ u, ((s.insert t).goto θ pc).timer u = s.timer u := fun u => by
    rw [State.goto, insert_timer]
  rcases head_insert ht hf with hf | ⟨rfl, hb⟩
  · exact .inl ⟨hf, by rw [hnext]⟩
  · rw [hnext]
    exact .inr (hfirst hb)

/-- A step that erases a timer about which no other thread is to test anything. -/
theorem Held.erase {t : Nat} (h : Held s wakeUp) (hset : Ordered s)
    (htickle : (s.thread θ).tickles = false)
    (hleave : t ∈ s.m_timer_set.head? → ∀ θ', s.thread θ' ≠ .addTest t)
    (hself : ∀ f, s.thread θ ≠ .addTest f) (hthread : s'.thread = Function.update s.thread θ pc)
    (hs : s'.m_timer_set = s.m_timer_set.erase t)
    (hnext : ∀ u, (s'.timer u).m_next = (s.timer u).m_next) : Held s' wakeUp := by
  apply h.step θ pc hthread htickle (fun f hf => absurd hf (hself f))
  intro f hf
  rw [hs] at hf
  rcases head_erase hf with hf | ⟨ht, hf⟩
  · exact .inl ⟨hf, hnext f⟩
  · -- the second timer has become the first one
    have hle := hset.head_le ht hf
    rcases h t ht with hw | ⟨θ', hd | hd⟩
    · refine .inr (.inl ?_)
      rw [hnext]
      omega
    · exact .inr (.inr (.inr ⟨θ', hd⟩))
    · exact absurd hd (hleave ht θ')

/-- The steps of a call, `tickle()` apart. -/
theorem held_threadStep {now : UInt64} (hA : Apart s) (h : Held s wakeUp)
    (hinsert : ∀ t, s.thread θ = .refreshInsert t →
      (∀ first ∈ s.m_timer_set.head?, s.before t first) →
        wakeUp ≤ (s.timer t).m_next.toNat ∨ ∃ θ', (s.thread θ').tickles = true)
    (herase : ∀ t, (s.thread θ = .cancelErase t ∨ s.thread θ = .refreshErase t ∨
      ∃ ms from_now, s.thread θ = .resetErase t ms from_now) → t ∈ s.m_timer_set.head? →
        ∀ θ', s.thread θ' ≠ .addTest t)
    (htickle : (s.thread θ).tickles = false)
    (hs : threadStep s θ now (s.thread θ) = some s') : Held s' wakeUp := by
  have hout : ∀ t, (s.thread θ).out = some t → t ∉ s.m_timer_set := hA.outside θ
  -- the steps that write the set or a timer first, the others at the end
  cases hpc : s.thread θ <;> simp only [threadStep, hpc] at hs
  case idle => cases hs
  case create t =>
    cases hs
    exact h.put (hout t (by rw [hpc]; rfl)) htickle (by simp [hpc]) fun _ => .inr (.inl rfl)
  case cancelErase t =>
    cases hs
    rw [erase_eq]
    apply h.erase hA.set htickle (herase t (.inl hpc)) (by simp [hpc]) rfl rfl
    intro u
    show (Function.update s.timer t _ u).m_next = _
    rcases eq_or_ne u t with rfl | hne
    · rw [Function.update_self]
    · rw [Function.update_of_ne hne]
  case refreshErase t =>
    split at hs <;> cases hs
    · exact h.goto htickle (by simp [hpc])
    · rw [erase_eq]
      exact h.erase hA.set htickle (herase t (.inr (.inl hpc))) (by simp [hpc]) rfl rfl
        fun _ => rfl
  case resetErase t ms from_now =>
    split at hs <;> cases hs
    · exact h.goto htickle (by simp [hpc])
    · rw [erase_eq]
      exact h.erase hA.set htickle (herase t (.inr (.inr ⟨ms, from_now, hpc⟩))) (by simp [hpc])
        rfl rfl fun _ => rfl
  case refreshWrite t next =>
    cases hs
    exact h.write (hout t (by rw [hpc]; rfl)) _ htickle (by simp [hpc])
  case resetWriteMs t ms start =>
    cases hs
    exact h.write (hout t (by rw [hpc]; rfl)) _ htickle (by simp [hpc])
  case resetWriteNext t ms start =>
    cases hs
    exact h.write (hout t (by rw [hpc]; rfl)) _ htickle (by simp [hpc])
  case refreshInsert t =>
    -- the only insert behind which nobody looks at the first timer
    cases hs
    apply h.put (hout t (by rw [hpc]; rfl)) htickle (by simp [hpc])
    intro hb
    exact (hinsert t hpc hb).imp id .inr
  case resetInsert t =>
    cases hs
    exact h.put (hout t (by rw [hpc]; rfl)) htickle (by simp [hpc]) fun _ => .inr (.inl rfl)
  case addTest t =>
    split at hs <;> cases hs
    · exact h.goto htickle fun _ _ _ => rfl
    · rename_i hfirst
      refine h.step θ _ rfl htickle (fun f hf hhead => ?_) fun _ hf => .inl ⟨hf, rfl⟩
      rw [hpc, ThreadPc.addTest.injEq] at hf
      exact absurd (hf ▸ hhead) hfirst
  case addTickle t =>
    rw [hpc] at htickle; cases htickle
  all_goals
    cases hs
    exact h.goto htickle (by simp [hpc])

end

/-! ### Every step -/

section
variable [DecidableEq Θ] {r r' : Run Θ κ}

omit [DecidableEq Θ] in
/-- What is blocked later was blocked before. -/
theorem blocked_mono {pc : LoopPc} {s s' : State Θ κ} {clock clock' : UInt64}
    (h : clock ≤ clock') {wakeUp : Int} (hw : wakeUp ∈ (Run.mk s' pc clock').blocked) :
    wakeUp ∈ (Run.mk s pc clock).blocked := by
  have hle := UInt64.le_iff_toNat_le.mp h
  obtain ⟨hpc, hlt⟩ := mem_blocked.mp hw
  refine mem_blocked.mpr ⟨hpc, ?_⟩
  dsimp only at hlt ⊢
  omega

/-- **The timer thread.** When it goes to sleep it wakes up in time. -/
theorem RunInv.loop (h : RunInv r) {now : UInt64} {probe : Nat} (hg : Soon r (.loop now probe)) :
    RunInv (loopStep r now probe r.run) := by
  cases hrun : r.run with
  | top =>
    refine ⟨h.apart, fun wakeUp hw first hf => .inl ?_⟩
    obtain ⟨hpc, hlt⟩ := mem_blocked.mp hw
    obtain rfl : now.toNat + (r.timers.newTimeOut now).toInt = wakeUp := (LoopPc.waiting.inj hpc).1
    have hsoon := hg hrun first hf
    cases hset : r.timers.m_timer_set with
    | nil =>
      replace hf : first ∈ r.timers.m_timer_set.head? := hf
      rw [hset] at hf; cases hf
    | cons t ts =>
      -- the wait is not longer than the time to the first deadline, which fits into an `int`
      replace hf : first ∈ r.timers.m_timer_set.head? := hf
      obtain rfl : t = first := by simpa [hset] using hf
      have hnear : Near r.timers now := by
        rw [Near, hset]
        rintro u ⟨⟩
        rcases Nat.lt_or_ge now.toNat (r.timers.timer t).m_next.toNat with hlt | hle
        · right
          rw [UInt64.toNat_sub_of_le _ _ (UInt64.le_iff_toNat_le.mpr hlt.le)]
          omega
        · exact .inl (UInt64.le_iff_toNat_le.mpr hle)
      have hle := (newTimeOut_cons hset now).2 hnear
      replace hlt : now.toNat < now.toNat + (r.timers.newTimeOut now).toInt := hlt
      show _ ≤ ((r.timers.timer t).m_next.toNat : Int)
      omega
  | waiting wakeUp signalled => exact ⟨h.apart, fun _ hw => by cases hw⟩
  | collect => exact ⟨h.apart.expire now probe, fun _ hw => by cases hw⟩
  | callbacks =>
    simp only [loopStep]
    split
    · rename_i timers hd
      refine ⟨apart_step (a := .doFunc) h.apart hd, fun wakeUp hw => ?_⟩
      obtain ⟨hpc, -⟩ := mem_blocked.mp hw
      rw [hrun] at hpc; cases hpc
    · exact ⟨h.apart, fun _ hw => by cases hw⟩

/-- **The other threads.** -/
theorem RunInv.call (h : RunInv r) {a : Action Θ κ} (hg : Announced r (.call a))
    (hclock : r.clock ≤ a.now?.getD r.clock) (hs : callStep r a = some r') : RunInv r' := by
  cases a with
  | listExpiredCallback now probe => cases hs
  | doFunc => cases hs
  | addTimer θ t ms callback recurring now =>
    obtain ⟨timers, hstep, rfl⟩ := Option.map_eq_some_iff.mp hs
    refine ⟨apart_step h.apart hstep, fun wakeUp hw => ?_⟩
    have hheld := h.held wakeUp (blocked_mono hclock hw)
    simp only [step] at hstep
    split at hstep <;> cases hstep
    rename_i hc
    have ht : t ∉ r.timers.m_timer_set := fun ht => by
      rw [h.apart.mem t ht] at hc; cases hc.2
    exact hheld.write ht _ (by rw [hc.1]; rfl) (by simp [hc.1])
  | cancel θ t | refresh θ t | reset θ t ms from_now =>
    obtain ⟨timers, hstep, rfl⟩ := Option.map_eq_some_iff.mp hs
    refine ⟨apart_step h.apart hstep, fun wakeUp hw => ?_⟩
    have hheld := h.held wakeUp hw
    simp only [step] at hstep
    split at hstep <;> cases hstep
    rename_i hc
    exact hheld.goto (by rw [hc.1]; rfl) (by simp [hc.1])
  | run θ now =>
    obtain ⟨timers, hstep, rfl⟩ := Option.map_eq_some_iff.mp hs
    refine ⟨apart_step h.apart hstep, fun wakeUp hw => ?_⟩
    cases htickle : (r.timers.thread θ).tickles with
    | true =>
      -- the timer thread has been signalled
      rw [htickle] at hw
      obtain ⟨hpc, -⟩ := mem_blocked.mp hw
      cases hrun : r.run <;> simp [hrun, LoopPc.notify] at hpc
    | false =>
      rw [htickle] at hw
      have hw' : wakeUp ∈ r.blocked := blocked_mono hclock hw
      refine held_threadStep h.apart (h.held wakeUp hw') (fun t hpc => ?_) (fun t hpc => ?_) htickle
        hstep
      · simp only [Announced, AnnouncedAt, hpc] at hg
        exact hg wakeUp hw'
      · have hsome : r.blocked.isSome := Option.isSome_iff_exists.mpr ⟨wakeUp, hw'⟩
        rcases hpc with hpc | hpc | ⟨ms, from_now, hpc⟩ <;>
          simp only [Announced, AnnouncedAt, hpc] at hg <;> exact hg hsome

omit [DecidableEq Θ] in
theorem runInv_initial : RunInv (.initial : Run Θ κ) :=
  ⟨apart_initial, fun _ hw => by cases hw⟩

/-- Every step that meets the condition keeps the invariant. -/
theorem runInv_step {a : RunAction Θ κ} (h : RunInv r) (hg : Soon r a ∧ Announced r a)
    (hs : runStep r a = some r') : RunInv r' := by
  cases a with
  | call a =>
    simp only [runStep] at hs
    split at hs
    · rename_i hclock
      exact h.call hg.2 hclock hs
    · cases hs
  | loop now probe =>
    simp only [runStep] at hs
    split at hs
    · exact Option.some.inj hs ▸ h.loop hg.1
    · cases hs

/-- **No oversleeping under `Announced`.** -/
theorem announced_inTime
    (h : (runSystem Θ κ).ReachableUnder (fun r a => Soon r a ∧ Announced r a) r) : InTime r :=
  (LTS.ReachableUnder.invariant (I := RunInv) (fun _ h => h ▸ runInv_initial)
    (fun _ _ _ h hg hs => runInv_step h hg hs) h).inTime

end

/-- The timer thread sleeps on an empty set when a timer of 10 ms is added; it is signalled,
    collects nothing and goes to sleep again. -/
def added : List (RunAction Unit Unit) :=
  [.loop 0 9, .call (.addTimer () 1 10 (some ()) false 0), .call (.run () 0), .call (.run () 0),
    .call (.run () 0), .loop 0 9, .loop 0 9, .loop 0 9, .loop 0 9]

/-- After `added` it sleeps until 10. -/
theorem announced_inTime_added :
    ∃ r : Run Unit Unit, (runSystem Unit Unit).exec .initial added = some r ∧
      r.blocked = some 10 ∧ InTime r := by
  have hr : (runSystem Unit Unit).exec .initial added = some _ := rfl
  exact ⟨_, hr, rfl, announced_inTime (LTS.ReachableUnder.exec (.init rfl) (by decide) hr)⟩

end LimWebserver.TimerManager
