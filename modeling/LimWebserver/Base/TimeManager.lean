import LimWebserver.Lib.Transition

namespace LimWebserver.TimeManager

open LimWebserver.Lib

/-!
# Base — `TimeManager`: the text of the newest second

`getTimeString` tests the second, formats it if it is another one, and returns a reference to the
cached text, in a locked section each; the caller copies the text after that.

* `Pc`, `State` — where the calls stand, the cache, and what the calls have returned;
* `isNewestSecond`, `formatString`, `getTimeString`, `copy` — the sections of a call;
* `Inv` — the cached text belongs to the last `formatString`;
* `Undisturbed` — a copy that no other second comes before; `getTimeString_iff` — all runs.
-/

/-- Where a call `getTimeString(seconds)` stands. -/
inductive Pc
  | idle
  /-- about to call `isNewestSecond` -/
  | test (seconds : Int)
  /-- about to call `formatString` -/
  | format (seconds : Int)
  /-- about to take `m_mutex` and to return the reference -/
  | lock (seconds : Int)
  /-- the caller has the reference -/
  | copy (seconds : Int)
  deriving DecidableEq, Repr

/-- The argument of a call that does not look at `m_lastSeconds` any more. -/
def Pc.cached : Pc → Option Int
  | .lock seconds | .copy seconds => some seconds
  | _ => none

/-- The argument of a call whose text is about to be copied. -/
def Pc.copying : Pc → Option Int
  | .copy seconds => some seconds
  | _ => none

structure State (Θ Text : Type*) where
  m_lastTimeString : Text
  m_lastSeconds : Int
  pc : Θ → Pc
  /-- the second of the last `formatString` of any thread since the call has tested its own -/
  since : Θ → Option Int
  /-- the arguments of the calls and the texts that the callers have copied -/
  results : List (Int × Text)

inductive Action (Θ : Type*)
  | call (θ : Θ) (seconds : Int)
  /-- the next section of the call of a thread -/
  | next (θ : Θ)
  deriving DecidableEq, Repr

variable {Θ Text : Type*} [DecidableEq Θ] (fmt : Int → Text)

/-- `isNewestSecond(seconds)`, and the branch taken. -/
def isNewestSecond (s : State Θ Text) (θ : Θ) (seconds : Int) : State Θ Text :=
  { s with
    pc := Function.update s.pc θ
      (if seconds = s.m_lastSeconds then .lock seconds else .format seconds)
    since := Function.update s.since θ none }

/-- `formatString(seconds)`, where `fmt` is what `localtime_r` and `snprintf` make of a second. -/
def formatString (s : State Θ Text) (θ : Θ) (seconds : Int) : State Θ Text :=
  { s with
    m_lastTimeString := fmt seconds
    m_lastSeconds := seconds
    pc := Function.update s.pc θ (.lock seconds)
    since := fun _ => some seconds }

/-- The end of `getTimeString`: the reference is returned. -/
def getTimeString (s : State Θ Text) (θ : Θ) (seconds : Int) : State Θ Text :=
  { s with pc := Function.update s.pc θ (.copy seconds) }

/-- `std::string buf = getTimeString(seconds)` of the caller. -/
def copy (s : State Θ Text) (θ : Θ) (seconds : Int) : State Θ Text :=
  { s with
    pc := Function.update s.pc θ .idle
    results := s.results ++ [(seconds, s.m_lastTimeString)] }

def step (s : State Θ Text) : Action Θ → Option (State Θ Text)
  | .call θ seconds =>
    if s.pc θ = .idle then some { s with pc := Function.update s.pc θ (.test seconds) } else none
  | .next θ =>
    match s.pc θ with
    | .idle => none
    | .test seconds => some (isNewestSecond s θ seconds)
    | .format seconds => some (formatString fmt s θ seconds)
    | .lock seconds => some (getTimeString s θ seconds)
    | .copy seconds => some (copy s θ seconds)

/-- The state behind the constructor, which formats `time(0)`. -/
def start (now : Int) : State Θ Text := ⟨fmt now, now, fun _ => .idle, fun _ => none, []⟩

/-- All runs of any number of threads. -/
def system (Θ : Type*) [DecidableEq Θ] (fmt : Int → Text) : LTS (State Θ Text) (Action Θ) where
  init s := ∃ now, s = start fmt now
  step := step fmt

/-- **Every call has got the text of its argument.** -/
def Safe (s : State Θ Text) : Prop := ∀ r ∈ s.results, r.2 = fmt r.1

/-- If a `formatString` has come between the test of a call and its copy, the last one of these was
    for a second with the same text. -/
def Undisturbed (s : State Θ Text) : Action Θ → Prop
  | .call _ _ => True
  | .next θ => ∀ seconds ∈ (s.pc θ).copying, ∀ t ∈ s.since θ, fmt t = fmt seconds

instance [DecidableEq Text] (s : State Θ Text) : ∀ a, Decidable (Undisturbed fmt s a)
  | .call _ _ => .isTrue trivial
  | .next θ =>
    inferInstanceAs (Decidable (∀ seconds ∈ (s.pc θ).copying, ∀ t ∈ s.since θ, fmt t = fmt seconds))

/-- The cache belongs to the last `formatString`, or to the second that a call has found there. -/
structure Inv (s : State Θ Text) : Prop where
  string : s.m_lastTimeString = fmt s.m_lastSeconds
  since : ∀ θ seconds, (s.pc θ).cached = some seconds →
    (s.since θ).getD seconds = s.m_lastSeconds
  safe : Safe fmt s

variable {fmt} {s s' : State Θ Text} {θ : Θ} {seconds : Int} {a : Action Θ}

omit [DecidableEq Θ] in
theorem inv_start (now : Int) : Inv fmt (start fmt now : State Θ Text) where
  string := rfl
  since _ _ h := by cases h
  safe := nofun

/-! ### The sections -/

/-- A thread moves on, and neither the cache nor the calls of others change. -/
theorem Inv.move (h : Inv fmt s) {p : Pc}
    (hp : ∀ t, p.cached = some t → (s.since θ).getD t = s.m_lastSeconds) :
    Inv fmt { s with pc := Function.update s.pc θ p } where
  string := h.string
  since θ' t ht := by
    dsimp only at ht ⊢
    rcases eq_or_ne θ' θ with rfl | hne
    · rw [Function.update_self] at ht
      exact hp t ht
    · rw [Function.update_of_ne hne] at ht
      exact h.since θ' t ht
  safe := h.safe

theorem Inv.isNewestSecond (h : Inv fmt s) : Inv fmt (isNewestSecond s θ seconds) where
  string := h.string
  since θ' t ht := by
    dsimp only [TimeManager.isNewestSecond] at ht ⊢
    rcases eq_or_ne θ' θ with rfl | hne
    · rw [Function.update_self] at ht ⊢
      split_ifs at ht with hnewest
      · rw [Option.getD_none, ← Option.some.inj ht, hnewest]
      · cases ht
    · rw [Function.update_of_ne hne] at ht ⊢
      exact h.since θ' t ht
  safe := h.safe

theorem Inv.formatString (h : Inv fmt s) : Inv fmt (formatString fmt s θ seconds) where
  string := rfl
  since _ _ _ := rfl
  safe := h.safe

omit [DecidableEq Θ] in
/-- What is copied is the text of the argument, if the copy is not disturbed. -/
theorem Inv.copy_iff (h : Inv fmt s) (hpc : s.pc θ = .copy seconds) :
    s.m_lastTimeString = fmt seconds ↔ Undisturbed fmt s (.next θ) := by
  have hsince := h.since θ seconds (by rw [hpc, Pc.cached])
  rw [h.string, ← hsince, Undisturbed, hpc, Pc.copying]
  cases s.since θ with
  | none => simp
  | some t => simp

theorem Inv.copy (h : Inv fmt s) (htext : s.m_lastTimeString = fmt seconds) :
    Inv fmt (copy s θ seconds) where
  string := h.string
  since := (h.move (θ := θ) (p := .idle) nofun).since
  safe r hr := by
    rcases List.mem_append.mp hr with hr | hr
    · exact h.safe r hr
    · rw [List.mem_singleton.mp hr]
      exact htext

/-! ### Runs -/

/-- What a step does. -/
theorem step_cases (hs : step fmt s a = some s') :
    (∃ θ seconds, a = .call θ seconds ∧
      s' = { s with pc := Function.update s.pc θ (.test seconds) }) ∨
    ∃ θ seconds, a = .next θ ∧
      (s.pc θ = .test seconds ∧ s' = isNewestSecond s θ seconds ∨
        s.pc θ = .format seconds ∧ s' = formatString fmt s θ seconds ∨
        s.pc θ = .lock seconds ∧ s' = getTimeString s θ seconds ∨
        s.pc θ = .copy seconds ∧ s' = copy s θ seconds) := by
  cases a with
  | call θ seconds =>
    rw [step] at hs
    split_ifs at hs
    exact .inl ⟨θ, seconds, rfl, (Option.some.inj hs).symm⟩
  | next θ =>
    right
    rw [step] at hs
    split at hs
    · cases hs
    · next seconds hpc => exact ⟨θ, seconds, rfl, .inl ⟨hpc, (Option.some.inj hs).symm⟩⟩
    · next seconds hpc => exact ⟨θ, seconds, rfl, .inr (.inl ⟨hpc, (Option.some.inj hs).symm⟩)⟩
    · next seconds hpc =>
      exact ⟨θ, seconds, rfl, .inr (.inr (.inl ⟨hpc, (Option.some.inj hs).symm⟩))⟩
    · next seconds hpc =>
      exact ⟨θ, seconds, rfl, .inr (.inr (.inr ⟨hpc, (Option.some.inj hs).symm⟩))⟩

theorem inv_step (h : Inv fmt s) (hg : Undisturbed fmt s a) (hs : step fmt s a = some s') :
    Inv fmt s' := by
  obtain ⟨θ, seconds, rfl, rfl⟩ | ⟨θ, seconds, rfl, hnext⟩ := step_cases hs
  · exact h.move nofun
  obtain ⟨-, rfl⟩ | ⟨-, rfl⟩ | ⟨hpc, rfl⟩ | ⟨hpc, rfl⟩ := hnext
  · exact h.isNewestSecond
  · exact h.formatString
  · exact h.move fun t ht => h.since θ t (by rwa [hpc])
  · exact h.copy ((h.copy_iff hpc).mpr hg)

omit [DecidableEq Θ] in
/-- Only a copy can be disturbed. -/
theorem undisturbed_of_copying (h : (s.pc θ).copying = none) : Undisturbed fmt s (.next θ) :=
  fun seconds hseconds => by rw [h] at hseconds; cases hseconds

/-- A disturbed copy is another text. -/
theorem not_safe_step (h : Inv fmt s) (hg : ¬Undisturbed fmt s a) (hs : step fmt s a = some s') :
    ¬Safe fmt s' := by
  obtain ⟨θ, seconds, rfl, -⟩ | ⟨θ, seconds, rfl, hnext⟩ := step_cases hs
  · exact absurd trivial hg
  obtain ⟨hpc, -⟩ | ⟨hpc, -⟩ | ⟨hpc, -⟩ | ⟨hpc, rfl⟩ := hnext
  · exact absurd (undisturbed_of_copying (by rw [hpc]; rfl)) hg
  · exact absurd (undisturbed_of_copying (by rw [hpc]; rfl)) hg
  · exact absurd (undisturbed_of_copying (by rw [hpc]; rfl)) hg
  · intro hsafe
    have hmem : (seconds, s.m_lastTimeString) ∈ (copy s θ seconds).results :=
      List.mem_append_right _ List.mem_cons_self
    exact hg ((h.copy_iff hpc).mp (hsafe _ hmem))

/-- What a caller has copied does not change any more. -/
theorem results_subset (hs : step fmt s a = some s') : s.results ⊆ s'.results := by
  obtain ⟨θ, seconds, -, rfl⟩ | ⟨θ, seconds, -, hnext⟩ := step_cases hs
  · exact List.Subset.refl _
  obtain ⟨-, rfl⟩ | ⟨-, rfl⟩ | ⟨-, rfl⟩ | ⟨-, rfl⟩ := hnext
  · exact List.Subset.refl _
  · exact List.Subset.refl _
  · exact List.Subset.refl _
  · exact List.subset_append_left _ _

/-- **The calls of a run get the texts of their arguments** exactly if no copy is disturbed. -/
theorem getTimeString_iff {now : Int} {as : List (Action Θ)}
    (hrun : (system Θ fmt).exec (start fmt now) as = some s) :
    Safe fmt s ↔ (system Θ fmt).Guarded (Undisturbed fmt) (start fmt now) as :=
  LTS.safe_iff_guarded (I := Inv fmt) (B := fun s => ¬Safe fmt s) (fun _ h => h.safe)
    (fun _ h => h) (fun _ _ _ h hg hs => inv_step h hg hs)
    (fun _ _ _ h hg hs => not_safe_step h hg hs)
    (fun _ _ _ h hs hsafe => h fun r hr => hsafe r (results_subset hs hr)) (inv_start now) hrun

/-- The hours, minutes and seconds of a day. -/
def clock (seconds : Int) : Int × Int × Int :=
  (seconds / 3600 % 24, seconds / 60 % 60, seconds % 60)

/-- One call, whose text nobody replaces. -/
theorem getTimeString_iff_call : ∃ s : State Bool (Int × Int × Int),
    s.results = [(59, (0, 0, 59))] ∧ Safe clock s :=
  have hrun : (system Bool clock).exec (start clock 0)
      [.call true 59, .next true, .next true, .next true, .next true] = some _ := rfl
  ⟨_, rfl, (getTimeString_iff hrun).mpr (by decide)⟩

/-- The end of a minute: the call for 0:00:59 gets the text of 0:01:00, which another thread has
    formatted in the meantime. -/
theorem getTimeString_minute : ¬∀ (as : List (Action Bool)) (s : State Bool (Int × Int × Int)),
    (system Bool clock).exec (start clock 0) as = some s → Safe clock s := fun h =>
  absurd (h [.call true 59, .next true, .next true, .call false 60, .next false, .next false,
    .next true, .next true] _ rfl (59, (0, 1, 0)) List.mem_cons_self) (by decide)

end LimWebserver.TimeManager
