import LimWebserver.Coroutine.TimerApart

namespace LimWebserver.TimerManager

open LimWebserver.Lib

/-!
# Coroutine — `Timer::cancel` against the timer thread

* `Safe` — what callers rely on: a one-shot timer is cancelled or run, not both, and nothing
  outside the set is erased from it;
* `Inv` — the invariant behind it: where each timer is, and how often its callback is used;
* `Rechecked` — the test that `cancelTimer` makes before it takes the lock still holds once it has
  the lock; `safe_iff_rechecked` — a run is safe exactly when this is so at all of its steps.
-/

variable {Θ κ : Type*}

/-! ### The invariant -/

/-- How often the callback of timer `t` has been run, waits to be run or has been cancelled. -/
def State.used (s : State Θ κ) (t : Nat) : Nat :=
  s.cancelled t + s.ran t + s.callback_list.countP fun e => e.1 = t && e.2.isSome

/-- The invariant of the timers. -/
structure Inv (s : State Θ κ) : Prop where
  set : Ordered s
  /-- Threads and the set know built timers only. -/
  about : ∀ θ t, (s.thread θ).about = some t → s.built t = true
  mem : ∀ t ∈ s.m_timer_set, s.built t = true
  shared : ∀ t, s.shared t = true → s.built t = true
  unused : ∀ t, s.built t = false → s.used t = 0
  /-- A timer that has not been inserted yet is known to one thread only. -/
  create : ∀ θ t, s.thread θ = .create t →
    s.shared t = false ∧ ∀ θ', (s.thread θ').about = some t → θ' = θ
  /-- Each timer with a callback is in the set or in the hands of a thread. -/
  live : ∀ t, s.built t = true → (s.timer t).m_callback.isSome →
    t ∈ s.m_timer_set ∨ ∃ θ, (s.thread θ).out = some t
  /-- One thread at a time has a timer out of the set. -/
  out : ∀ θ θ' t, (s.thread θ).out = some t → (s.thread θ').out = some t → θ' = θ
  outside : ∀ θ t, (s.thread θ).out = some t → t ∉ s.m_timer_set
  /-- A timer that is taken out to be put back has its callback. -/
  outLive : ∀ θ t, (s.thread θ).out = some t → (s.thread θ).tested = some t →
    (s.timer t).m_callback.isSome
  /-- A timer whose callback went away after a thread saw it is not in the set. -/
  dead : ∀ θ t, (s.thread θ).tested = some t → (s.timer t).m_callback = none →
    t ∉ s.m_timer_set
  /-- The callback of a one-shot timer is used once. -/
  once : ∀ t, (s.timer t).m_recurring = false →
    s.used t + (if (s.timer t).m_callback.isSome then 1 else 0) ≤ 1
  badErase : s.badErase = false

/-- The part of the invariant that every run keeps. -/
theorem Inv.apart {s : State Θ κ} (h : Inv s) : Apart s :=
  ⟨h.set, h.about, h.mem, h.shared, h.create, h.out, h.outside⟩

/-- The part that depends on the callbacks. -/
theorem Inv.of_apart {s : State Θ κ} (h : Apart s)
    (unused : ∀ t, s.built t = false → s.used t = 0)
    (live : ∀ t, s.built t = true → (s.timer t).m_callback.isSome →
      t ∈ s.m_timer_set ∨ ∃ θ, (s.thread θ).out = some t)
    (outLive : ∀ θ t, (s.thread θ).out = some t → (s.thread θ).tested = some t →
      (s.timer t).m_callback.isSome)
    (dead : ∀ θ t, (s.thread θ).tested = some t → (s.timer t).m_callback = none →
      t ∉ s.m_timer_set)
    (once : ∀ t, (s.timer t).m_recurring = false →
      s.used t + (if (s.timer t).m_callback.isSome then 1 else 0) ≤ 1)
    (badErase : s.badErase = false) : Inv s :=
  ⟨h.set, h.about, h.mem, h.shared, unused, h.create, live, h.out, h.outside, outLive, dead, once,
    badErase⟩

theorem inv_initial : Inv (initial : State Θ κ) := by
  constructor
  case set => exact ⟨List.nodup_nil, List.Pairwise.nil⟩
  all_goals simp [initial, State.used, ThreadPc.about, ThreadPc.out, ThreadPc.tested]

theorem about_of_tested {pc : ThreadPc} {t : Nat} (h : pc.tested = some t) :
    pc.about = some t := by
  cases pc <;> simp_all [ThreadPc.tested, ThreadPc.about]

/-- The only timers that are out without having been tested are new. -/
theorem create_of_out {pc : ThreadPc} {t : Nat} (h : pc.out = some t) (ht : pc.tested ≠ some t) :
    pc = .create t := by
  cases pc <;> simp_all [ThreadPc.out, ThreadPc.tested]

/-! ### The timer thread keeps the invariant -/

/-- How often a callback is collected. -/
theorem countP_collected (f : Nat → Option κ) (u : Nat) : ∀ {ts : List Nat}, ts.Nodup →
    (ts.map fun t => (t, f t)).countP (fun e => e.1 = u && e.2.isSome) =
      if u ∈ ts ∧ (f u).isSome then 1 else 0
  | [], _ => by simp
  | t :: ts, h => by
    obtain ⟨ht, h⟩ := List.nodup_cons.mp h
    rw [List.map_cons, List.countP_cons, countP_collected f u h]
    rcases eq_or_ne t u with rfl | hne
    · simp [ht]
    · simp [hne, hne.symm]

/-- `listExpiredCallback` while no callback waits. -/
theorem Inv.expire {s : State Θ κ} (hI : Inv s) (hl : s.callback_list = []) (now : UInt64)
    (probe : Nat) :
    Inv (s.listExpiredCallback now probe) := by
  have hA := hI.apart.expire now probe
  obtain ⟨ts, rest, time, hset, hc⟩ := collected_listExpiredCallback now probe hI.set
  have hnd := hI.set.nodup
  rw [hset, List.nodup_append] at hnd
  have hcb : ∀ t, ((s.listExpiredCallback now probe).timer t).m_callback =
      if t ∈ ts ∧ (s.timer t).m_recurring = false then none else (s.timer t).m_callback :=
    hc.callback
  have hmem : ∀ t, t ∈ (s.listExpiredCallback now probe).m_timer_set ↔
      t ∈ rest ∨ (t ∈ ts ∧ (s.timer t).m_recurring = true) := hc.mem
  have hsub : ∀ t, t ∈ (s.listExpiredCallback now probe).m_timer_set → t ∈ s.m_timer_set :=
    fun _ => mem_of_mem_expire hI.set
  -- what a thread holds is not in the set, so it is not among the expired timers
  have hout : ∀ θ t, (s.thread θ).out = some t → t ∉ ts := fun θ t ho ht =>
    hI.outside θ t ho (by rw [hset]; exact List.mem_append_left _ ht)
  -- each callback is used once more if its timer has expired and was not cancelled
  have hused : ∀ t, (s.listExpiredCallback now probe).used t =
      s.used t + if t ∈ ts ∧ (s.timer t).m_callback.isSome then 1 else 0 := by
    intro t
    rw [State.used, State.used, hc.list, hc.ran, hc.cancelled]
    simp only [hl, List.nil_append, List.countP_nil]
    rw [countP_collected _ _ hnd.1]
    rfl
  refine .of_apart hA ?unused ?live ?outLive ?dead ?once ?badErase
  case unused =>
    intro t ht
    rw [hc.built] at ht
    rw [hused, hI.unused t ht, if_neg]
    rintro ⟨hts, -⟩
    have := hI.mem t (by rw [hset]; exact List.mem_append_left _ hts)
    rw [ht] at this; cases this
  case live =>
    intro t hb hsome
    rw [hc.built] at hb
    rw [hcb] at hsome
    rw [hc.thread, hmem]
    split at hsome
    · cases hsome
    · rename_i hts
      refine (hI.live t hb hsome).imp (fun ht => ?_) id
      rw [hset, List.mem_append] at ht
      rcases ht with ht | ht
      · exact .inr ⟨ht, by simpa [ht] using hts⟩
      · exact .inl ht
  case outLive =>
    intro θ t ho htest
    rw [hc.thread] at ho htest
    rw [hcb, if_neg fun h => hout θ t ho h.1]
    exact hI.outLive θ t ho htest
  case dead =>
    intro θ t htest hnone ht
    rw [hc.thread] at htest
    rw [hcb] at hnone
    split at hnone
    · -- an expired one-shot timer does not go back into the set
      rename_i hts
      rcases (hmem t).mp ht with hr | ⟨-, hr⟩
      · exact hnd.2.2 t hts.1 t hr rfl
      · rw [hts.2] at hr; cases hr
    · exact hI.dead θ t htest hnone (hsub t ht)
  case once =>
    intro t hr
    have hr' : (s.timer t).m_recurring = false := (hc.recurring t).symm.trans hr
    have honce := hI.once t hr'
    rw [hused, hcb]
    by_cases hts : t ∈ ts
    · simpa [hts, hr'] using honce
    · simpa [hts] using honce
  case badErase => exact hc.badErase.trans hI.badErase

/-- `doFunc`. -/
theorem Inv.doFunc {s s' : State Θ κ} (hI : Inv s) (h : s.doFunc = some s') : Inv s' := by
  unfold State.doFunc at h
  split at h
  · cases h
  · cases h
    rename_i t callback rest hl
    have hused : ∀ u, State.used { s with
        callback_list := rest
        ran := if callback.isSome then Function.update s.ran t (s.ran t + 1) else s.ran } u =
        s.used u := by
      intro u
      simp only [State.used, hl, List.countP_cons]
      cases callback with
      | none => simp
      | some f =>
        rcases eq_or_ne t u with rfl | hne <;> simp [*, Function.update_of_ne, Ne.symm]; omega
    exact ⟨⟨hI.set.nodup, hI.set.ordered⟩, hI.about, hI.mem, hI.shared,
      fun u hu => (hused u).trans (hI.unused u hu), hI.create, hI.live, hI.out, hI.outside,
      hI.outLive, hI.dead, fun u hr => (hused u).symm ▸ hI.once u hr, hI.badErase⟩

/-! ### The threads keep the invariant -/

section
variable [DecidableEq Θ]

/-- A step of thread `θ` to program point `pc` that leaves all callbacks alone and keeps every
    timer it handles in the set or in its hands. -/
structure Moved (s s' : State Θ κ) (θ : Θ) (pc : ThreadPc) : Prop where
  thread : s'.thread = Function.update s.thread θ pc
  built : s'.built = s.built
  used : ∀ t, s'.used t = s.used t
  badErase : s'.badErase = s.badErase
  recurring : ∀ t, (s'.timer t).m_recurring = (s.timer t).m_recurring
  callback : ∀ t, (s'.timer t).m_callback = (s.timer t).m_callback
  set : Ordered s'
  shared : ∀ t, s'.shared t = true → s.shared t = true ∨
    ((s.thread θ).about = some t ∧ s.thread θ ≠ .create t)
  create : ∀ t, pc ≠ .create t
  about : ∀ t, pc.about = some t → (s.thread θ).about = some t ∨ s.shared t = true
  tested : ∀ t, pc.tested = some t → (s.thread θ).tested = some t ∨ (s.timer t).m_callback.isSome
  place : ∀ t, (t ∈ s'.m_timer_set ∨ pc.out = some t) ↔
    (t ∈ s.m_timer_set ∨ (s.thread θ).out = some t)
  outside : ∀ t, pc.out = some t → t ∉ s'.m_timer_set

variable {s s' : State Θ κ} {θ θ' : Θ} {t : Nat} {pc : ThreadPc}

theorem Moved.thread_self (h : Moved s s' θ pc) : s'.thread θ = pc := by
  rw [h.thread, Function.update_self]

theorem Moved.thread_of_ne (h : Moved s s' θ pc) (hne : θ' ≠ θ) :
    s'.thread θ' = s.thread θ' := by
  rw [h.thread, Function.update_of_ne hne]

theorem Moved.moves (h : Moved s s' θ pc) : Moves s s' θ pc :=
  ⟨h.thread, h.built, h.set, h.shared, h.create, h.about, fun t => (h.place t).mp, h.outside⟩

/-- Such a step keeps the invariant. -/
theorem Inv.moved (hI : Inv s) (θ : Θ) (pc : ThreadPc) (h : Moved s s' θ pc) : Inv s' := by
  have hA := hI.apart.moves θ pc h.moves
  -- a timer that is in the set now was there or in the hands of `θ`
  have hset : ∀ t, t ∈ s'.m_timer_set → t ∈ s.m_timer_set ∨ (s.thread θ).out = some t :=
    fun t ht => (h.place t).mp (.inl ht)
  -- a timer that `θ` has found set and can still reach has its callback
  have hlive : ∀ t, (s.thread θ).tested = some t →
      t ∈ s.m_timer_set ∨ (s.thread θ).out = some t → (s.timer t).m_callback.isSome := by
    rintro t htest (ht | ht)
    · by_contra hc
      exact hI.dead θ t htest (by simpa using hc) ht
    · exact hI.outLive θ t ht htest
  refine .of_apart hA ?unused ?live ?outLive ?dead ?once ?badErase
  case badErase => exact h.badErase.trans hI.badErase
  case unused =>
    intro t ht
    rw [h.used]
    exact hI.unused t (h.built ▸ ht)
  case live =>
    intro t hb hc
    rw [h.built] at hb
    rw [h.callback] at hc
    rcases hI.live t hb hc with ht | ⟨θ', ho⟩
    · exact ((h.place t).mpr (.inl ht)).imp id fun ho => ⟨θ, by rw [h.thread_self]; exact ho⟩
    · rcases eq_or_ne θ' θ with rfl | hne
      · exact ((h.place t).mpr (.inr ho)).imp id fun ho => ⟨θ', by rw [h.thread_self]; exact ho⟩
      · exact .inr ⟨θ', by rw [h.thread_of_ne hne]; exact ho⟩
  case outLive =>
    intro θ' t ho htest
    rw [h.callback]
    rcases eq_or_ne θ' θ with rfl | hne
    · rw [h.thread_self] at ho htest
      rcases h.tested t htest with htest | hc
      · exact hlive t htest ((h.place t).mp (.inr ho))
      · exact hc
    · rw [h.thread_of_ne hne] at ho htest
      exact hI.outLive θ' t ho htest
  case dead =>
    intro θ' t htest hc ht
    rw [h.callback] at hc
    rcases eq_or_ne θ' θ with rfl | hne
    · rw [h.thread_self] at htest
      rcases h.tested t htest with htest | hsome
      · have := hlive t htest (hset t ht)
        rw [hc] at this; cases this
      · rw [hc] at hsome; cases hsome
    · rw [h.thread_of_ne hne] at htest
      rcases hset t ht with ht | ho
      · exact hI.dead θ' t htest hc ht
      · -- `θ` has the timer out without a callback, so it is new and `θ'` cannot know it
        have hne' : (s.thread θ).tested ≠ some t := fun h' => by
          have := hI.outLive θ t ho h'
          rw [hc] at this; cases this
        exact hne ((hI.create θ t (create_of_out ho hne')).2 θ' (about_of_tested htest))
  case once =>
    intro t hr
    rw [h.used, h.callback]
    exact hI.once t (h.recurring t ▸ hr)

/-- A step that moves `θ` only. -/
theorem Inv.goto (hI : Inv s) (hcreate : ∀ t, pc ≠ .create t)
    (habout : ∀ t, pc.about = some t → (s.thread θ).about = some t ∨ s.shared t = true)
    (htested : ∀ t, pc.tested = some t → (s.thread θ).tested = some t ∨
      (s.timer t).m_callback.isSome)
    (hout : pc.out = (s.thread θ).out) : Inv (s.goto θ pc) :=
  hI.moved θ pc ⟨rfl, rfl, fun _ => rfl, rfl, fun _ => rfl, fun _ => rfl,
    ⟨hI.set.nodup, hI.set.ordered⟩, fun _ => .inl, hcreate, habout, htested,
    fun t => by rw [hout]; rfl, fun t ht => hI.outside θ t (hout ▸ ht)⟩

/-- A step that takes a tested timer out of the set. -/
theorem Inv.take (hI : Inv s) (ht : t ∈ s.m_timer_set) (hout : (s.thread θ).out = none)
    (htested : (s.thread θ).tested = some t) (hpc : pc.out = some t) (hpc' : pc.tested = some t) :
    Inv ((s.erase t).goto θ pc) := by
  rw [erase_of_mem ht]
  have hmem : ∀ u, u ∈ s.m_timer_set.erase t ↔ u ≠ t ∧ u ∈ s.m_timer_set := fun u =>
    hI.set.nodup.mem_erase_iff
  refine hI.moved θ pc ⟨rfl, rfl, fun _ => rfl, rfl, fun _ => rfl, fun _ => rfl, ?_,
    fun _ => .inl, ?_, ?_, ?_, ?_, ?_⟩
  · exact hI.set.sublist List.erase_sublist fun _ _ => rfl
  · rintro u rfl
    simp [ThreadPc.tested] at hpc'
  · intro u hu
    rw [about_of_out hpc] at hu
    exact .inl (hu ▸ about_of_tested htested)
  · intro u hu
    rw [hpc'] at hu
    exact .inl (hu ▸ htested)
  · intro u
    simp only [State.goto, hmem, hpc, hout, Option.some.injEq, reduceCtorEq, or_false]
    grind
  · intro u hu
    rw [hpc, Option.some.injEq] at hu
    exact fun h => ((hmem u).mp h).1 hu.symm

/-- A step that puts a timer into the set. -/
theorem Inv.put (hI : Inv s) (hout : (s.thread θ).out = some t) (hpc : pc.out = none)
    (hpc' : pc.tested = none) (habout : ∀ u, pc.about = some u → u = t) :
    Inv ((s.insert t).goto θ pc) := by
  refine hI.moved θ pc ⟨by simp [State.goto], by simp [State.goto], ?_,
    by simp [State.goto], by simp [State.goto], by simp [State.goto], ?_, ?_, ?_, ?_, ?_, ?_, ?_⟩
  · simp [State.used, State.goto]
  · exact ⟨(hI.set.insert t).nodup, (hI.set.insert t).ordered⟩
  · intro u hu
    exact .inl (by simpa [State.goto] using hu)
  · rintro u rfl
    simp [ThreadPc.out] at hpc
  · intro u hu
    exact .inl (habout u hu ▸ about_of_out hout)
  · simp [hpc']
  · intro u
    simp only [State.goto, mem_insert, hout, hpc, Option.some.injEq, reduceCtorEq, or_false]
    grind
  · simp [hpc]

/-- A step that writes a field, other than the callback, of a timer that is out. -/
theorem Inv.write (hI : Inv s) (hout : (s.thread θ).out = some t) {x : Timer κ}
    (hcb : x.m_callback = (s.timer t).m_callback) (hrec : x.m_recurring = (s.timer t).m_recurring)
    (hpc : pc.out = some t) (hpc' : pc.tested = some t) (htested : (s.thread θ).tested = some t) :
    Inv ((s.setTimer t x).goto θ pc) := by
  have hset := hI.set.setTimer (hI.outside θ t hout) x
  refine hI.moved θ pc ⟨rfl, rfl, fun _ => rfl, rfl, fun u => ?_, fun u => ?_,
    ⟨hset.nodup, hset.ordered⟩, fun _ => .inl, ?_, ?_, ?_, ?_, ?_⟩
  · rcases eq_or_ne u t with rfl | hne <;> simp [State.goto, State.setTimer, *]
  · rcases eq_or_ne u t with rfl | hne <;> simp [State.goto, State.setTimer, *]
  · rintro u rfl
    simp [ThreadPc.tested] at hpc'
  · intro u hu
    rw [about_of_out hpc] at hu
    exact .inl (hu ▸ about_of_out hout)
  · intro u hu
    rw [hpc'] at hu
    exact .inl (hu ▸ htested)
  · intro u
    rw [hpc, hout]; rfl
  · intro u hu
    rw [hpc] at hu
    exact hI.outside θ u (hu ▸ hout)

/-- The end of `addTimer`, which hands the timer to its caller. -/
theorem Inv.share (hI : Inv s) (habout : (s.thread θ).about = some t)
    (hout : (s.thread θ).out = none) :
    Inv { s.goto θ .idle with shared := Function.update s.shared t true } := by
  have hcreate : s.thread θ ≠ .create t := fun h => by rw [h] at hout; cases hout
  refine hI.moved θ .idle ⟨rfl, rfl, fun _ => rfl, rfl, fun _ => rfl, fun _ => rfl,
    ⟨hI.set.nodup, hI.set.ordered⟩, fun u hu => ?_, by simp,
    fun _ hu => (by cases hu), fun _ hu => (by cases hu), ?_, fun _ hu => by cases hu⟩
  · rcases eq_or_ne u t with rfl | hne
    · exact .inr ⟨habout, hcreate⟩
    · simp only [Function.update_of_ne hne] at hu
      exact .inl hu
  · intro u
    rw [hout]; rfl

/-- A thread that is back from its call has no timer. -/
theorem thread_idle {f : ThreadPc → Option Nat} (hf : f .idle = none) {u : Nat}
    (h : f (Function.update s.thread θ .idle θ') = some u) :
    θ' ≠ θ ∧ f (s.thread θ') = some u := by
  rcases eq_or_ne θ' θ with rfl | hne
  · rw [Function.update_self, hf] at h; cases h
  · rw [Function.update_of_ne hne] at h; exact ⟨hne, h⟩

/-- The locked section of `cancelTimer` for a timer that has its callback and is not out. -/
theorem Inv.cancel (hI : Inv s) (hpc : s.thread θ = .cancelErase t)
    (hcb : (s.timer t).m_callback.isSome) (hout : ∀ θ', (s.thread θ').out ≠ some t) :
    Inv { ((s.setTimer t { s.timer t with m_callback := none }).erase t).goto θ .idle with
      cancelled := Function.update s.cancelled t (s.cancelled t + 1) } := by
  have hA := hI.apart.cancel θ t (Function.update s.cancelled t (s.cancelled t + 1))
  have hb := hI.about θ t (by rw [hpc]; rfl)
  have ht : t ∈ s.m_timer_set :=
    (hI.live t hb hcb).resolve_right fun h => h.elim hout
  have hone : ∀ u, u ≠ t → Function.update s.timer t { s.timer t with m_callback := none } u =
      s.timer u := fun u hu => Function.update_of_ne hu _ _
  rw [erase_of_mem (s := s.setTimer t _) ht] at hA ⊢
  have hmem : ∀ u, u ∈ s.m_timer_set.erase t ↔ u ≠ t ∧ u ∈ s.m_timer_set := fun u =>
    hI.set.nodup.mem_erase_iff
  refine .of_apart hA ?unused ?live ?outLive ?dead ?once ?badErase
  case unused =>
    intro u hu
    have hne : u ≠ t := by rintro rfl; rw [show s.built u = false from hu] at hb; cases hb
    simpa [State.used, State.goto, State.setTimer, Function.update_of_ne hne] using hI.unused u hu
  case live =>
    intro u hbu hc
    have hne : u ≠ t := by
      rintro rfl
      simp [State.goto, State.setTimer] at hc
    change (Function.update s.timer t _ u).m_callback.isSome = true at hc
    rw [hone u hne] at hc
    refine (hI.live u hbu hc).imp (fun h => (hmem u).mpr ⟨hne, h⟩) ?_
    rintro ⟨θ', ho⟩
    refine ⟨θ', ?_⟩
    have hθ : θ' ≠ θ := by rintro rfl; rw [hpc] at ho; cases ho
    show (Function.update s.thread θ .idle θ').out = some u
    rwa [Function.update_of_ne hθ]
  case outLive =>
    intro θ' u ho htest
    have ho' := (thread_idle rfl ho).2
    have hne : u ≠ t := by rintro rfl; exact hout θ' ho'
    show (Function.update s.timer t _ u).m_callback.isSome
    rw [hone u hne]
    exact hI.outLive θ' u ho' (thread_idle rfl htest).2
  case dead =>
    intro θ' u htest hc hu
    obtain ⟨hne, hu⟩ := (hmem u).mp hu
    refine hI.dead θ' u (thread_idle rfl htest).2 ?_ hu
    rwa [← hone u hne]
  case once =>
    intro u hr
    rcases eq_or_ne u t with rfl | hne
    · have honce := hI.once u (by simpa [State.goto, State.setTimer] using hr)
      rw [if_pos hcb] at honce
      simp only [State.used, State.goto, State.setTimer, Function.update_self, Option.isSome_none,
        Bool.false_eq_true, if_false] at honce ⊢
      omega
    · have honce := hI.once u (hone u hne ▸ hr)
      simpa [State.used, State.goto, State.setTimer, Function.update_of_ne hne] using honce
  case badErase => exact hI.badErase

/-- A new timer. -/
theorem Inv.addTimer (hI : Inv s) (hb : s.built t = false) (hθ : s.thread θ = .idle)
    (x : Timer κ) :
    Inv { (s.setTimer t x).goto θ (.create t) with built := Function.update s.built t true } := by
  have hA := hI.apart.addTimer (θ := θ) hb x
  have hne_of_built : ∀ u, s.built u = true → u ≠ t := by
    rintro u hu rfl
    rw [hb] at hu; cases hu
  have hone : ∀ u, u ≠ t → Function.update s.timer t x u = s.timer u := fun u hu =>
    Function.update_of_ne hu _ _
  have hbuilt : ∀ u, s.built u = true → Function.update s.built t true u = true := fun u hu => by
    rw [Function.update_of_ne (hne_of_built u hu)]; exact hu
  refine .of_apart hA ?unused ?live ?outLive ?dead ?once ?badErase
  case unused =>
    intro u hu
    apply hI.unused u
    by_contra hbu
    have := hbuilt u (by simpa using hbu)
    rw [show Function.update s.built t true u = false from hu] at this
    cases this
  case live =>
    intro u hbu hc
    rcases eq_or_ne u t with rfl | hne
    · exact .inr ⟨θ, by simp [State.goto, ThreadPc.out]⟩
    · change (Function.update s.timer t x u).m_callback.isSome = true at hc
      change Function.update s.built t true u = true at hbu
      rw [hone u hne] at hc
      rw [Function.update_of_ne hne] at hbu
      apply (hI.live u hbu hc).imp_right
      rintro ⟨θ', ho⟩
      refine ⟨θ', ?_⟩
      have hθ' : θ' ≠ θ := by rintro rfl; rw [hθ] at ho; cases ho
      show (Function.update s.thread θ _ θ').out = some u
      rwa [Function.update_of_ne hθ']
  case outLive =>
    intro θ' u ho htest
    have hne : u ≠ t := by
      rintro rfl
      obtain rfl := hI.apart.eq_of_about_create hb (about_of_out ho)
      simp [State.goto, ThreadPc.tested] at htest
    show (Function.update s.timer t x u).m_callback.isSome = true
    rw [hone u hne]
    exact hI.outLive θ' u (of_update_create hne (by simp [ThreadPc.out]) ho)
      (of_update_create hne (by simp [ThreadPc.tested]) htest)
  case dead =>
    intro θ' u htest hc hu
    have hne := hne_of_built u (hI.mem u hu)
    refine hI.dead θ' u (of_update_create hne (by simp [ThreadPc.tested]) htest) ?_ hu
    rwa [← hone u hne]
  case once =>
    intro u hr
    rcases eq_or_ne u t with rfl | hne
    · have hzero : s.used u = 0 := hI.unused u hb
      show s.used u + _ ≤ 1
      rw [hzero]
      split <;> simp
    · change _ + (if (Function.update s.timer t x u).m_callback.isSome = true then 1 else 0) ≤ 1
      rw [hone u hne]
      exact hI.once u (hone u hne ▸ hr)
  case badErase => exact hI.badErase

/-- The condition on a step: when `cancelTimer` has the lock, the timer still has the callback
    that the test before the lock found, and no `refreshTimer`, `resetTimer` or `addTimer` has it
    out of the set at that moment. -/
def Rechecked (s : State Θ κ) : Action Θ κ → Prop
  | .run θ _ => ∀ t, s.thread θ = .cancelErase t →
      (s.timer t).m_callback.isSome ∧ ∀ θ', (s.thread θ').out ≠ some t
  | _ => True

/-- The steps of a call. -/
theorem inv_threadStep {now : UInt64} (hI : Inv s) (hg : Rechecked s (.run θ now))
    (h : threadStep s θ now (s.thread θ) = some s') : Inv s' := by
  cases hpc : s.thread θ <;> simp only [threadStep, hpc] at h
  case idle => cases h
  case create t =>
    cases h
    exact hI.put (by rw [hpc]; rfl) rfl rfl (by simp [ThreadPc.about])
  case cancelTest t =>
    cases h
    refine hI.goto ?_ ?_ ?_ ?_ <;> split <;>
      simp_all [ThreadPc.about, ThreadPc.tested, ThreadPc.out]
  case cancelErase t =>
    cases h
    exact hI.cancel hpc (hg t hpc).1 (hg t hpc).2
  case refreshTest t =>
    cases h
    refine hI.goto ?_ ?_ ?_ ?_ <;> split <;>
      simp_all [ThreadPc.about, ThreadPc.tested, ThreadPc.out]
  case refreshErase t =>
    split at h <;> cases h
    · exact hI.goto (by simp) (fun _ hu => by cases hu) (fun _ hu => by cases hu) (by rw [hpc]; rfl)
    · rename_i hf
      exact hI.take (mem_of_find hf) (by rw [hpc]; rfl) (by rw [hpc]; rfl) rfl rfl
  case refreshRead t =>
    cases h
    exact hI.goto (by simp) (by simp [hpc, ThreadPc.about]) (by simp [hpc, ThreadPc.tested])
      (by rw [hpc]; rfl)
  case refreshWrite t next =>
    cases h
    exact hI.write (by rw [hpc]; rfl) rfl rfl rfl rfl (by rw [hpc]; rfl)
  case refreshInsert t =>
    cases h
    exact hI.put (by rw [hpc]; rfl) rfl rfl (fun _ hu => by cases hu)
  case resetSame t ms from_now =>
    cases h
    refine hI.goto ?_ ?_ ?_ ?_ <;> split <;>
      simp_all [ThreadPc.about, ThreadPc.tested, ThreadPc.out]
  case resetTest t ms from_now =>
    cases h
    refine hI.goto ?_ ?_ ?_ ?_ <;> split <;>
      simp_all [ThreadPc.about, ThreadPc.tested, ThreadPc.out]
  case resetErase t ms from_now =>
    split at h <;> cases h
    · exact hI.goto (by simp) (fun _ hu => by cases hu) (fun _ hu => by cases hu) (by rw [hpc]; rfl)
    · rename_i hf
      exact hI.take (mem_of_find hf) (by rw [hpc]; rfl) (by rw [hpc]; rfl) rfl rfl
  case resetStart t ms from_now =>
    cases h
    refine hI.goto ?_ ?_ ?_ ?_ <;> split <;>
      simp_all [ThreadPc.about, ThreadPc.tested, ThreadPc.out]
  case resetRead t ms next =>
    cases h
    exact hI.goto (by simp) (by simp [hpc, ThreadPc.about]) (by simp [hpc, ThreadPc.tested])
      (by rw [hpc]; rfl)
  case resetWriteMs t ms start =>
    cases h
    exact hI.write (by rw [hpc]; rfl) rfl rfl rfl rfl (by rw [hpc]; rfl)
  case resetWriteNext t ms start =>
    cases h
    exact hI.write (by rw [hpc]; rfl) rfl rfl rfl rfl (by rw [hpc]; rfl)
  case resetInsert t =>
    cases h
    exact hI.put (by rw [hpc]; rfl) rfl rfl (by simp [ThreadPc.about])
  case addTest t =>
    split at h <;> cases h
    · exact hI.goto (by simp) (by simp [hpc, ThreadPc.about]) (fun _ hu => by cases hu)
        (by rw [hpc]; rfl)
    · exact hI.share (by rw [hpc]; rfl) (by rw [hpc]; rfl)
  case addTickle t =>
    cases h
    exact hI.share (by rw [hpc]; rfl) (by rw [hpc]; rfl)

/-- Every step that meets the condition keeps the invariant. -/
theorem inv_step {a : Action Θ κ} (hI : Inv s) (hg : Rechecked s a) (h : step s a = some s') :
    Inv s' := by
  cases a with
  | addTimer θ t ms callback recurring now =>
    simp only [step] at h
    split at h <;> cases h
    rename_i hc
    exact hI.addTimer hc.2 hc.1 _
  | cancel θ t | refresh θ t | reset θ t ms from_now =>
    simp only [step] at h
    split at h <;> cases h
    rename_i hc
    exact hI.goto (by simp) (by simp [ThreadPc.about, hc.2]) (fun _ hu => by cases hu)
      (by rw [hc.1]; rfl)
  | run θ now => exact inv_threadStep hI hg h
  | listExpiredCallback now probe =>
    simp only [step] at h
    split at h <;> cases h
    rename_i hl
    exact hI.expire hl now probe
  | doFunc => exact hI.doFunc h

end

/-! ### Safe runs -/

/-- What a caller of `cancel` relies on. -/
structure Safe (s : State Θ κ) : Prop where
  /-- A one-shot timer is not both cancelled and run. -/
  exclusive : ∀ t, (s.timer t).m_recurring = false → ¬ (0 < s.cancelled t ∧ 0 < s.ran t)
  /-- One `cancel()` at most returns true. -/
  cancelled : ∀ t, (s.timer t).m_recurring = false → s.cancelled t ≤ 1
  /-- Only elements of the set are erased from it. -/
  badErase : s.badErase = false

theorem Inv.safe {s : State Θ κ} (hI : Inv s) : Safe s := by
  have hused : ∀ t, (s.timer t).m_recurring = false → s.cancelled t + s.ran t ≤ 1 := by
    intro t hr
    have honce := hI.once t hr
    rw [State.used] at honce
    omega
  exact ⟨fun t hr ⟨hc, hran⟩ => by have := hused t hr; omega,
    fun t hr => by have := hused t hr; omega, hI.badErase⟩

section
variable [DecidableEq Θ] {s s' : State Θ κ}

omit [DecidableEq Θ] in
/-- The loop over the expired timers erases nothing. -/
theorem foldl_expire_badErase (now : UInt64) (ts : List Nat) :
    ∀ s : State Θ κ, (ts.foldl (State.expire now) s).badErase = s.badErase := by
  induction ts with
  | nil => exact fun _ => rfl
  | cons t ts ih =>
    intro s
    rw [List.foldl_cons, ih, State.expire]
    dsimp only
    split
    · rw [insert_badErase]; rfl
    · rfl

/-- A bad call of `erase` is never undone. -/
theorem step_badErase {a : Action Θ κ} (hb : s.badErase = true) (h : step s a = some s') :
    s'.badErase = true := by
  have herase : ∀ {s : State Θ κ} t, s.badErase = true → (s.erase t).badErase = true := by
    intro s t hs
    unfold State.erase
    split
    · exact hs
    · rfl
  cases a with
  | addTimer θ t ms callback recurring now | cancel θ t | refresh θ t | reset θ t ms from_now =>
    simp only [step] at h
    split at h <;> cases h
    exact hb
  | run θ now =>
    simp only [step] at h
    cases hpc : s.thread θ <;> simp only [threadStep, hpc] at h
    case idle => cases h
    case create t | refreshInsert t | resetInsert t =>
      cases h
      exact (insert_badErase (s := s) (t := t)).trans hb
    case cancelErase t =>
      cases h
      exact herase t hb
    case refreshErase t | resetErase t ms from_now =>
      split at h <;> cases h
      · exact hb
      · exact herase t hb
    case addTest t => split at h <;> cases h <;> exact hb
    all_goals cases h; exact hb
  | listExpiredCallback now probe =>
    simp only [step] at h
    split at h <;> cases h
    unfold State.listExpiredCallback
    split
    · exact hb
    · dsimp only
      split
      · exact hb
      · rw [foldl_expire_badErase]; exact hb
  | doFunc =>
    simp only [step, State.doFunc] at h
    split at h <;> cases h
    exact hb

/-- A step that does not meet the condition erases `end()`. -/
theorem step_of_not_rechecked {a : Action Θ κ} (hI : Inv s) (hg : ¬ Rechecked s a)
    (h : step s a = some s') : s'.badErase = true := by
  cases a with
  | run θ now =>
    simp only [Rechecked, not_forall] at hg
    obtain ⟨t, hpc, hg⟩ := hg
    have ht : t ∉ s.m_timer_set := by
      rw [not_and_or] at hg
      rcases hg with hc | ho
      · exact hI.dead θ t (by rw [hpc]; rfl) (by simpa using hc)
      · simp only [not_forall, not_not] at ho
        obtain ⟨θ', ho⟩ := ho
        exact hI.outside θ' t ho
    simp only [step, hpc, threadStep, Option.some.injEq] at h
    rw [← h, erase_of_notMem (s := s.setTimer t _) ht]
    rfl
  | _ => exact absurd trivial hg

/-- **When timers are safe.** A run keeps what callers rely on exactly when, at each of its steps
    in which a `cancelTimer` has taken the lock, the timer still has its callback and is not in
    the hands of another call. -/
theorem safe_iff_rechecked (as : List (Action Θ κ))
    (h : (system Θ κ).exec initial as = some s) :
    Safe s ↔ (system Θ κ).Guarded Rechecked initial as :=
  LTS.safe_iff_guarded (I := Inv) (fun _ hI => hI.safe)
    (fun _ (hb : State.badErase _ = true) hs => by rw [hs.badErase] at hb; cases hb)
    (fun _ _ _ hI hg hs => inv_step hI hg hs) (fun _ _ _ hI hg hs => step_of_not_rechecked hI hg hs)
    (fun _ _ _ hb hs => step_badErase hb hs) inv_initial h

end

/-- A timer of `0` ms is built and shared, `cancel()` finds its callback set, and before it has the
    lock the timer expires and its callback runs. -/
def lateCancel : List (Action Nat Unit) :=
  [.addTimer 0 1 0 (some ()) false 0, .run 0 0, .run 0 0, .run 0 0, .cancel 0 1, .run 0 0,
    .listExpiredCallback 0 9, .doFunc, .run 0 0]

/-- **Cancelled and run.** Callers cannot rely on it: after `lateCancel` the timer has been run,
    `cancel()` has returned true and `end()` has been erased. -/
theorem cancel_not_safe : ¬ ∀ s : State Nat Unit, (system Nat Unit).Reachable s → Safe s := by
  intro h
  have hr : (system Nat Unit).exec initial lateCancel = some _ := rfl
  have hs := h _ (LTS.reachable_of_exec rfl hr)
  exact hs.exclusive 1 rfl ⟨by decide, by decide⟩

/-- The same timer, with the lock taken before it expires. -/
theorem safe_iff_rechecked_inTime :
    ∃ s : State Nat Unit, (system Nat Unit).exec initial
        [.addTimer 0 1 0 (some ()) false 0, .run 0 0, .run 0 0, .run 0 0, .cancel 0 1, .run 0 0,
          .run 0 0, .listExpiredCallback 0 9] = some s ∧ s.cancelled 1 = 1 ∧
      (Safe s ↔ (system Nat Unit).Guarded Rechecked initial
        [.addTimer 0 1 0 (some ()) false 0, .run 0 0, .run 0 0, .run 0 0, .cancel 0 1, .run 0 0,
          .run 0 0, .listExpiredCallback 0 9]) :=
  ⟨_, rfl, rfl, safe_iff_rechecked _ rfl⟩

end LimWebserver.TimerManager
