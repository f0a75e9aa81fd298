import LimWebserver.Coroutine.HookSleep
import LimWebserver.Lib.Narrow

namespace LimWebserver.HookSleep

open LimWebserver.Lib

/-!
# Coroutine — `Hook`: how long a sleep is

`sleep` multiplies in an `unsigned int`, `usleep` divides, and `nanosleep` computes in a `long` and
stores the result in an `int`, before `addTimer` takes the milliseconds as a `uint64_t`.

* `SleepFun.Accepted`, `SleepFun.requested` — the arguments, and the duration that they ask for;
* `LongEnough` — what a sleeper is promised: the timer is not set to less than that;
* `usleep_rounds_down` — it may be;
* `SleepFun.Fits` — the arguments whose conversion loses nothing;
* `longEnough_iff_fits` — exactly these keep the promise.
-/

/-- The arguments that a function accepts. -/
def SleepFun.Accepted : SleepFun → Prop
  | .nanosleep tv_sec tv_nsec =>
    0 ≤ tv_sec.toInt ∧ 0 ≤ tv_nsec.toInt ∧ tv_nsec.toInt < 1000000000
  | _ => True

/-- The nanoseconds that a function is asked to sleep. -/
def SleepFun.requested : SleepFun → Int
  | .sleep seconds => seconds.toNat * 1000000000
  | .usleep usec => usec.toNat * 1000
  | .nanosleep tv_sec tv_nsec => tv_sec.toInt * 1000000000 + tv_nsec.toInt

/-- The whole milliseconds of a duration, without a limit. -/
def wholeMs (tv_sec tv_nsec : Int64) : Int := tv_sec.toInt * 1000 + tv_nsec.toInt / 1000000

/-- No signed number overflows on the way. -/
def SleepFun.Defined : SleepFun → Prop
  | .nanosleep tv_sec tv_nsec => wholeMs tv_sec tv_nsec < 2 ^ 63
  | _ => True

/-- **What a sleeper is promised**: `addTimer` is not given less than the requested duration. -/
structure LongEnough (f : SleepFun) : Prop where
  defined : f.Defined
  ms : f.requested ≤ f.ms.toNat * 1000000

/-- **Rounded down.** `usleep(1500)` sets its timer to one millisecond. -/
theorem usleep_rounds_down : ¬ ∀ f : SleepFun, f.Accepted → LongEnough f := by
  intro h
  have hms := (h (.usleep 1500) trivial).ms
  exact absurd hms (by decide)

/-- The arguments whose conversion to milliseconds loses nothing.  A `nanosleep` whose `int` turns
    out negative sleeps almost for ever. -/
def SleepFun.Fits : SleepFun → Prop
  | .sleep seconds => seconds.toNat * 1000 < 2 ^ 32
  | .usleep usec => 1000 ∣ usec.toNat
  | .nanosleep tv_sec tv_nsec => wholeMs tv_sec tv_nsec < 2 ^ 63 ∧
      (wholeMs tv_sec tv_nsec < 2 ^ 31 ∧ 1000000 ∣ tv_nsec.toInt ∨
        2 ^ 31 ≤ wholeMs tv_sec tv_nsec % 2 ^ 32)

/-! ### The three functions -/

theorem sleep_longEnough_iff (seconds : UInt32) :
    LongEnough (.sleep seconds) ↔ (SleepFun.sleep seconds).Fits := by
  have hms : (SleepFun.sleep seconds).ms.toNat = seconds.toNat * 1000 % 2 ^ 32 := by
    show (seconds * 1000).toUInt64.toNat = _
    rw [UInt32.toNat_toUInt64, UInt32.toNat_mul]
    rfl
  have hreq : (SleepFun.sleep seconds).requested = seconds.toNat * 1000000000 := rfl
  constructor
  · intro h
    have hle := h.ms
    rw [hms, hreq] at hle
    -- a product that has wrapped around is smaller than it was
    show seconds.toNat * 1000 < 2 ^ 32
    omega
  · intro h
    replace h : seconds.toNat * 1000 < 2 ^ 32 := h
    refine ⟨trivial, ?_⟩
    rw [hms, hreq]
    omega

theorem usleep_longEnough_iff (usec : UInt32) :
    LongEnough (.usleep usec) ↔ (SleepFun.usleep usec).Fits := by
  have hms : (SleepFun.usleep usec).ms.toNat = usec.toNat / 1000 := by
    show (usec / 1000).toUInt64.toNat = _
    rw [UInt32.toNat_toUInt64, UInt32.toNat_div]
    rfl
  have hreq : (SleepFun.usleep usec).requested = usec.toNat * 1000 := rfl
  constructor
  · intro h
    have hle := h.ms
    rw [hms, hreq] at hle
    -- a remainder is lost
    show 1000 ∣ usec.toNat
    omega
  · intro h
    replace h : 1000 ∣ usec.toNat := h
    refine ⟨trivial, ?_⟩
    rw [hms, hreq]
    omega

/-- What `nanosleep` computes in a `long`. -/
theorem toInt_wholeMs {tv_sec tv_nsec : Int64} (hsec : 0 ≤ tv_sec.toInt) (hnsec : 0 ≤ tv_nsec.toInt)
    (h : wholeMs tv_sec tv_nsec < 2 ^ 63) :
    (tv_sec * 1000 + tv_nsec / 1000 / 1000).toInt = wholeMs tv_sec tv_nsec := by
  unfold wholeMs at h ⊢
  have hdiv : (tv_nsec / 1000 / 1000).toInt = tv_nsec.toInt / 1000000 := by
    rw [Int64.toInt_div_of_ne_right _ _ (by decide), Int64.toInt_div_of_ne_right _ _ (by decide)]
    show (tv_nsec.toInt.tdiv 1000).tdiv 1000 = _
    rw [Int.tdiv_eq_ediv_of_nonneg hnsec, Int.tdiv_eq_ediv_of_nonneg (by omega)]
    omega
  have hmul : (tv_sec * 1000).toInt = tv_sec.toInt * 1000 := by
    rw [Int64.toInt_mul]
    show (tv_sec.toInt * 1000).bmod (2 ^ 64) = _
    rw [Int.bmod_eq_of_le (by omega) (by omega)]
  rw [Int64.toInt_add, hdiv, hmul, Int.bmod_eq_of_le (by omega) (by omega)]

theorem nanosleep_longEnough_iff {tv_sec tv_nsec : Int64}
    (h : (SleepFun.nanosleep tv_sec tv_nsec).Accepted) :
    LongEnough (.nanosleep tv_sec tv_nsec) ↔ (SleepFun.nanosleep tv_sec tv_nsec).Fits := by
  obtain ⟨hsec, hnsec, hnsec'⟩ := h
  by_cases hdef : wholeMs tv_sec tv_nsec < 2 ^ 63
  case neg => exact iff_of_false (fun h => hdef h.defined) fun h => hdef h.1
  have hreq : (SleepFun.nanosleep tv_sec tv_nsec).requested =
      tv_sec.toInt * 1000000000 + tv_nsec.toInt := rfl
  have hwhole : wholeMs tv_sec tv_nsec = tv_sec.toInt * 1000 + tv_nsec.toInt / 1000000 := rfl
  obtain ⟨m, hm⟩ := Int.eq_ofNat_of_zero_le (show 0 ≤ wholeMs tv_sec tv_nsec by omega)
  have hint : (tv_sec * 1000 + tv_nsec / 1000 / 1000).toInt32.toInt64.toInt =
      (m : Int).bmod (2 ^ (31 + 1)) := by
    rw [Int32.toInt_toInt64, Int64.toInt_toInt32, toInt_wholeMs hsec hnsec hdef, hm]
  have hfits : (SleepFun.nanosleep tv_sec tv_nsec).Fits ↔
      (wholeMs tv_sec tv_nsec < 2 ^ 31 ∧ 1000000 ∣ tv_nsec.toInt ∨
        2 ^ 31 ≤ wholeMs tv_sec tv_nsec % 2 ^ 32) := and_iff_right hdef
  rw [hfits]
  rcases Nat.lt_or_ge (m % 2 ^ 32) (2 ^ 31) with hlow | hhigh
  · -- the `int` is the low 32 bits
    have hms : ((SleepFun.nanosleep tv_sec tv_nsec).ms.toNat : Int) = (m % 2 ^ 32 : Nat) := by
      rw [bmod_of_low hlow] at hint
      show ((Int64.toUInt64 _).toNat : Int) = _
      rw [toNat_toUInt64_of_nonneg (by omega), hint, Int.toNat_natCast]
    constructor
    · intro h
      have hle := h.ms
      rw [hms, hreq] at hle
      refine .inl ⟨by omega, ?_⟩
      omega
    · intro h
      refine ⟨hdef, ?_⟩
      rw [hms, hreq]
      omega
  · -- the `int` is negative, and the timer is set to more than `2 ^ 63` milliseconds
    have hms : ((SleepFun.nanosleep tv_sec tv_nsec).ms.toNat : Int) =
        (m % 2 ^ 32 : Nat) - 2 ^ 32 + 2 ^ 64 := by
      rw [bmod_of_high hhigh] at hint
      show ((Int64.toUInt64 _).toNat : Int) = _
      rw [toNat_toUInt64_of_neg (by omega), hint]
    refine iff_of_true ⟨hdef, ?_⟩ (.inr (by omega))
    rw [hms, hreq]
    omega

/-- **When a sleep is long enough.** Exactly when its argument survives the conversions. -/
theorem longEnough_iff_fits (f : SleepFun) (h : f.Accepted) : LongEnough f ↔ f.Fits := by
  cases f with
  | sleep seconds => exact sleep_longEnough_iff seconds
  | usleep usec => exact usleep_longEnough_iff usec
  | nanosleep tv_sec tv_nsec => exact nanosleep_longEnough_iff h

/-- A `nanosleep` of 2500 ms, and one of 25 days. -/
theorem longEnough_iff_fits_nanosleep :
    (LongEnough (.nanosleep 2 500000000) ∧ (SleepFun.nanosleep 2 500000000).Fits) ∧
      LongEnough (.nanosleep 2160000 0) := by
  have hshort : (SleepFun.nanosleep 2 500000000).Fits := ⟨by decide, .inl (by decide)⟩
  have hlong : (SleepFun.nanosleep 2160000 0).Fits := ⟨by decide, .inr (by decide)⟩
  have hshort' : (SleepFun.nanosleep 2 500000000).Accepted := ⟨by decide, by decide, by decide⟩
  have hlong' : (SleepFun.nanosleep 2160000 0).Accepted := ⟨by decide, by decide, by decide⟩
  exact ⟨⟨(longEnough_iff_fits _ hshort').mpr hshort, hshort⟩,
    (longEnough_iff_fits _ hlong').mpr hlong⟩

end LimWebserver.HookSleep
