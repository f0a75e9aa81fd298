import LimWebserver.Coroutine.TimerApart
import LimWebserver.Lib.Narrow

namespace LimWebserver.TimerManager

open LimWebserver.Lib

/-!
# Coroutine — `TimerManager::run`: how long the timer thread sleeps

Before each round the timer thread takes the lock, asks `getNextExpire` how long it is to the first
deadline and sleeps in `waitTime` for as long.

* `getNextExpire`, `newTimeOut`, `waitTime` — the three steps from the set to a `timespec`;
* `SoundWait` — what the timer thread needs of them; `soundWait_far` — it does not get it when the
  first deadline is far away;
* `Near` — the deadlines that an `int` can hold; `reachable_soundWait_iff_near`.
-/

variable {Θ κ : Type*}

/-! ### From the set to a `timespec` -/

/-- `struct timespec` -/
structure Timespec where
  tv_sec : Int
  tv_nsec : Int
  deriving DecidableEq, Repr

/-- What the clock shows is a proper `timespec`. -/
def Timespec.Proper (t : Timespec) : Prop := 0 ≤ t.tv_nsec ∧ t.tv_nsec < 1000000000

/-- One moment is not after another. -/
def Timespec.notAfter (t u : Timespec) : Prop :=
  t.tv_sec < u.tv_sec ∨ (t.tv_sec = u.tv_sec ∧ t.tv_nsec ≤ u.tv_nsec)

/-- `getNextExpire()` -/
def State.getNextExpire (s : State Θ κ) (now : UInt64) : UInt64 :=
  match s.m_timer_set with
  | [] => 1000
  | next :: _ => if (s.timer next).m_next ≤ now then 0 else (s.timer next).m_next - now

/-- `int newTimeOut = getNextExpire();` -/
def State.newTimeOut (s : State Θ κ) (now : UInt64) : Int32 :=
  (s.getNextExpire now).toUInt32.toInt32

/-- The `abstime` that `waitTime(millisecond)` passes to `pthread_cond_timedwait`. -/
def waitTime (millisecond : Int32) (now : Timespec) : Timespec :=
  -- `/` and `%` round towards zero
  let abstime : Timespec := ⟨now.tv_sec + millisecond.toInt.tdiv 1000,
    now.tv_nsec + millisecond.toInt.tmod 1000 * 1000000⟩
  if 1000000000 ≤ abstime.tv_nsec then ⟨abstime.tv_sec + 1, abstime.tv_nsec - 1000000000⟩
  else abstime

/-- **What the timer thread needs**: it waits for a proper moment that is not in the past, and not
    for longer than the first deadline is away. -/
structure SoundWait (s : State Θ κ) (now : UInt64) (clock : Timespec) : Prop where
  nonneg : 0 ≤ (s.newTimeOut now).toInt
  inTime : ∀ t ∈ s.m_timer_set,
    (s.newTimeOut now).toInt ≤ max 0 (((s.timer t).m_next.toNat : Int) - now.toNat)
  idle : s.m_timer_set = [] → (s.newTimeOut now).toInt = 1000
  proper : (waitTime (s.newTimeOut now) clock).Proper
  notPast : clock.notAfter (waitTime (s.newTimeOut now) clock)

/-- The first deadline has come, or an `int` holds the time until then; of a longer time it holds
    the low 32 bits. -/
def Near (s : State Θ κ) (now : UInt64) : Prop :=
  ∀ first ∈ s.m_timer_set.head?, (s.timer first).m_next ≤ now ∨
    ((s.timer first).m_next - now).toNat % 2 ^ 32 < 2 ^ 31

instance (s : State Θ κ) (now : UInt64) : Decidable (Near s now) :=
  inferInstanceAs (Decidable (∀ first ∈ s.m_timer_set.head?, _))

/-- `newTimeOut` is not negative exactly when the first deadline is near, and then it is the time
    until there at most. -/
theorem newTimeOut_cons {s : State Θ κ} {first : Nat} {ts : List Nat}
    (hset : s.m_timer_set = first :: ts) (now : UInt64) :
    (Near s now ↔ 0 ≤ (s.newTimeOut now).toInt) ∧
      (Near s now → (s.newTimeOut now).toInt ≤
        max 0 (((s.timer first).m_next.toNat : Int) - now.toNat)) := by
  have hnear : Near s now ↔ (s.timer first).m_next ≤ now ∨
      ((s.timer first).m_next - now).toNat % 2 ^ 32 < 2 ^ 31 := by
    rw [Near, hset]
    simp
  have hint : (s.newTimeOut now).toInt = ((s.getNextExpire now).toNat : Int).bmod (2 ^ 32) :=
    toInt_narrow _
  rw [hnear, hint]
  simp only [State.getNextExpire, hset]
  split
  · rename_i hle
    have hzero : ((0 : UInt64).toNat : Int).bmod (2 ^ 32) = 0 := by decide
    rw [hzero]
    exact ⟨iff_of_true (.inl hle) le_rfl, fun _ => le_max_left _ _⟩
  · rename_i hle
    have hlt := UInt64.lt_iff_toNat_lt.mp (UInt64.not_le.mp hle)
    have hsub : ((s.timer first).m_next - now).toNat = (s.timer first).m_next.toNat - now.toNat :=
      UInt64.toNat_sub_of_le _ _ (UInt64.le_iff_toNat_le.mpr hlt.le)
    rcases Nat.lt_or_ge (((s.timer first).m_next - now).toNat % 2 ^ 32) (2 ^ 31) with hlow | hhigh
    · have hval := bmod_of_low hlow
      rw [hval]
      refine ⟨iff_of_true (.inr hlow) (Int.natCast_nonneg _), fun _ => ?_⟩
      rw [hsub]
      omega
    · have hval := bmod_of_high hhigh
      have hfar : ¬ ((s.timer first).m_next ≤ now ∨
          ((s.timer first).m_next - now).toNat % 2 ^ 32 < 2 ^ 31) := by
        rintro (h | h)
        · exact hle h
        · omega
      rw [hval]
      exact ⟨iff_of_false hfar (by omega), fun h => absurd h hfar⟩

/-- A time that is not negative makes a proper moment. -/
theorem waitTime_of_nonneg {millisecond : Int32} {now : Timespec} (hnow : now.Proper)
    (h : 0 ≤ millisecond.toInt) :
    (waitTime millisecond now).Proper ∧ now.notAfter (waitTime millisecond now) := by
  obtain ⟨hlow, hhigh⟩ := hnow
  have hdiv : millisecond.toInt.tdiv 1000 = millisecond.toInt / 1000 :=
    Int.tdiv_eq_ediv_of_nonneg h
  have hmod : millisecond.toInt.tmod 1000 = millisecond.toInt % 1000 :=
    Int.tmod_eq_emod_of_nonneg h
  unfold waitTime Timespec.Proper Timespec.notAfter
  rw [hdiv, hmod]
  dsimp only
  split <;> dsimp only <;> omega

/-- In a set in order the first timer has the first deadline. -/
theorem Ordered.first_le {s : State Θ κ} {first : Nat} {ts : List Nat} (h : Ordered s)
    (hset : s.m_timer_set = first :: ts) {t : Nat} (ht : t ∈ s.m_timer_set) :
    (s.timer first).m_next.toNat ≤ (s.timer t).m_next.toNat := by
  have hord := h.ordered
  rw [hset] at ht hord
  rcases List.mem_cons.mp ht with rfl | ht
  · exact le_rfl
  · have hb := (List.pairwise_cons.mp hord).1 t ht
    simp only [State.before, State.key, comparator, UInt64.lt_iff_toNat_lt] at hb
    omega

variable [DecidableEq Θ]

/-- **How long the timer thread waits.** In every state that a run reaches, the wait is sound
    exactly when the first deadline is near. -/
theorem reachable_soundWait_iff_near {s : State Θ κ} (h : (system Θ κ).Reachable s) (now : UInt64)
    {clock : Timespec} (hclock : clock.Proper) : SoundWait s now clock ↔ Near s now := by
  have hA := reachable_apart h
  cases hset : s.m_timer_set with
  | nil =>
    have hint : (s.newTimeOut now).toInt = 1000 := by
      simp only [State.newTimeOut, State.getNextExpire, hset]
      decide
    have hnear : Near s now := by
      rw [Near, hset]
      exact fun _ h => by cases h
    obtain ⟨hproper, hpast⟩ := waitTime_of_nonneg hclock (by omega : 0 ≤ (s.newTimeOut now).toInt)
    refine iff_of_true ⟨by omega, fun t ht => ?_, fun _ => hint, hproper, hpast⟩ hnear
    rw [hset] at ht
    exact absurd ht List.not_mem_nil
  | cons first ts =>
    obtain ⟨hnonneg, hle⟩ := newTimeOut_cons hset now
    constructor
    · exact fun hs => hnonneg.mpr hs.nonneg
    · intro hnear
      have h0 := hnonneg.mp hnear
      obtain ⟨hproper, hpast⟩ := waitTime_of_nonneg hclock h0
      refine ⟨h0, fun t ht => ?_, fun hnil => ?_, hproper, hpast⟩
      · have hfirst := hA.set.first_le hset ht
        have := hle hnear
        omega
      · rw [hset] at hnil; cases hnil

/-- A timer of `ms` milliseconds, just put into the set. -/
def oneTimer (ms : UInt64) : List (Action Unit Unit) :=
  [.addTimer () 1 ms (some ()) false 0, .run () 0]

/-- **A negative time.** A timer of `2 ^ 31` ms, about 25 days, makes `newTimeOut` the smallest
    `int`, and the moment to wait for lies in the past. -/
theorem soundWait_far : ¬ ∀ s : State Unit Unit, (system Unit Unit).Reachable s →
    ∀ (now : UInt64) (clock : Timespec), clock.Proper → SoundWait s now clock := by
  intro h
  have hr : (system Unit Unit).exec initial (oneTimer 2147483648) = some _ := rfl
  have hs := h _ (LTS.reachable_of_exec rfl hr) 0 ⟨0, 0⟩ ⟨by decide, by decide⟩
  exact absurd hs.nonneg (by decide)

/-- A timer of 1500 ms. -/
theorem reachable_soundWait_iff_near_short :
    ∃ s : State Unit Unit, (system Unit Unit).exec initial (oneTimer 1500) = some s ∧
      SoundWait s 0 ⟨100, 700000000⟩ ∧
      waitTime (s.newTimeOut 0) ⟨100, 700000000⟩ = ⟨102, 200000000⟩ := by
  have hr : (system Unit Unit).exec initial (oneTimer 1500) = some _ := rfl
  refine ⟨_, hr, ?_, by decide⟩
  exact (reachable_soundWait_iff_near (LTS.reachable_of_exec rfl hr) 0 ⟨by decide, by decide⟩).mpr
    (by decide)

end LimWebserver.TimerManager
