import LimWebserver.Coroutine.Timer

namespace LimWebserver.TimerManager

open LimWebserver.Lib

/-!
# Coroutine — no timer is in two places

Whatever the threads do, `m_timer_set` stays in order, a timer that a call has taken out is not in
the set, and no other call has it.

* `Apart` — the invariant;
* `Moves`, `Apart.moves` — a step of one thread, with `Apart.goto`, `Apart.take`, `Apart.put`,
  `Apart.write`, `Apart.share`, `Apart.cancel` and `Apart.addTimer` for the kinds of steps;
* `apart_step` — one case for each action; `reachable_apart` — every run.
-/

variable {Θ κ : Type*}

/-- What holds of the set and of the threads in every run: no timer is in two places. -/
structure Apart (s : State Θ κ) : Prop where
  set : Ordered s
  /-- Threads and the set know built timers only. -/
  about : ∀ θ t, (s.thread θ).about = some t → s.built t = true
  mem : ∀ t ∈ s.m_timer_set, s.built t = true
  shared : ∀ t, s.shared t = true → s.built t = true
  /-- A timer that has not been inserted yet is known to one thread only. -/
  create : ∀ θ t, s.thread θ = .create t →
    s.shared t = false ∧ ∀ θ', (s.thread θ').about = some t → θ' = θ
  /-- One thread at a time has a timer out of the set. -/
  out : ∀ θ θ' t, (s.thread θ).out = some t → (s.thread θ').out = some t → θ' = θ
  outside : ∀ θ t, (s.thread θ).out = some t → t ∉ s.m_timer_set

theorem apart_initial : Apart (initial : State Θ κ) := by
  constructor
  case set => exact ⟨List.nodup_nil, List.Pairwise.nil⟩
  all_goals simp [initial, ThreadPc.about, ThreadPc.out]

/-- A thread has a pointer to the timer that it has out. -/
theorem about_of_out {pc : ThreadPc} {t : Nat} (h : pc.out = some t) : pc.about = some t := by
  cases pc <;> simp_all [ThreadPc.out, ThreadPc.about]

/-- `listExpiredCallback` puts back only timers that it has taken out. -/
theorem mem_of_mem_expire {s : State Θ κ} {now : UInt64} {probe : Nat} (h : Ordered s) {t : Nat}
    (ht : t ∈ (s.listExpiredCallback now probe).m_timer_set) : t ∈ s.m_timer_set := by
  obtain ⟨ts, rest, time, hset, hc⟩ := collected_listExpiredCallback now probe h
  rw [hset, List.mem_append]
  exact ((hc.mem t).mp ht).elim .inr fun hts => .inl hts.1

/-- `listExpiredCallback`. -/
theorem Apart.expire {s : State Θ κ} (hA : Apart s) (now : UInt64) (probe : Nat) :
    Apart (s.listExpiredCallback now probe) := by
  obtain ⟨ts, rest, time, hset, hc⟩ := collected_listExpiredCallback now probe hA.set
  have hsub : ∀ t, t ∈ (s.listExpiredCallback now probe).m_timer_set → t ∈ s.m_timer_set :=
    fun _ => mem_of_mem_expire hA.set
  constructor
  case set => exact hc.ordered
  case about => rw [hc.thread, hc.built]; exact hA.about
  case mem => rw [hc.built]; exact fun t ht => hA.mem t (hsub t ht)
  case shared => rw [hc.shared, hc.built]; exact hA.shared
  case create => rw [hc.thread, hc.shared]; exact hA.create
  case out => rw [hc.thread]; exact hA.out
  case outside => rw [hc.thread]; exact fun θ t ho ht => hA.outside θ t ho (hsub t ht)

section
variable [DecidableEq Θ]

/-- A step of thread `θ` to program point `pc` that puts a timer into the set only when it has it
    in its hands. -/
structure Moves (s s' : State Θ κ) (θ : Θ) (pc : ThreadPc) : Prop where
  thread : s'.thread = Function.update s.thread θ pc
  built : s'.built = s.built
  set : Ordered s'
  shared : ∀ t, s'.shared t = true → s.shared t = true ∨
    ((s.thread θ).about = some t ∧ s.thread θ ≠ .create t)
  create : ∀ t, pc ≠ .create t
  about : ∀ t, pc.about = some t → (s.thread θ).about = some t ∨ s.shared t = true
  place : ∀ t, t ∈ s'.m_timer_set ∨ pc.out = some t →
    t ∈ s.m_timer_set ∨ (s.thread θ).out = some t
  outside : ∀ t, pc.out = some t → t ∉ s'.m_timer_set

variable {s s' : State Θ κ} {θ θ' : Θ} {t : Nat} {pc : ThreadPc}

theorem Apart.moves (hA : Apart s) (θ : Θ) (pc : ThreadPc) (h : Moves s s' θ pc) : Apart s' := by
  have hself : s'.thread θ = pc := by rw [h.thread, Function.update_self]
  have hother : ∀ θ', θ' ≠ θ → s'.thread θ' = s.thread θ' := fun θ' hne => by
    rw [h.thread, Function.update_of_ne hne]
  -- what another thread holds is neither in the set nor in the hands of `θ`
  have hapart : ∀ θ' t, θ' ≠ θ → (s.thread θ').out = some t →
      ¬ (t ∈ s.m_timer_set ∨ (s.thread θ).out = some t) := by
    rintro θ' t hne ho (ht | ht)
    · exact hA.outside θ' t ho ht
    · exact hne (hA.out θ θ' t ht ho)
  constructor
  case set => exact h.set
  case about =>
    intro θ' t ht
    rw [h.built]
    rcases eq_or_ne θ' θ with rfl | hne
    · rw [hself] at ht
      exact (h.about t ht).elim (hA.about _ t) (hA.shared t)
    · rw [hother θ' hne] at ht; exact hA.about θ' t ht
  case mem =>
    intro t ht
    rw [h.built]
    exact (h.place t (.inl ht)).elim (hA.mem t) fun ho => hA.about θ t (about_of_out ho)
  case shared =>
    intro t ht
    rw [h.built]
    exact (h.shared t ht).elim (hA.shared t) fun ha => hA.about θ t ha.1
  case create =>
    intro θ' t ht
    rcases eq_or_ne θ' θ with rfl | hne
    · rw [hself] at ht; exact absurd ht (h.create t)
    · rw [hother θ' hne] at ht
      obtain ⟨hsh, halone⟩ := hA.create θ' t ht
      refine ⟨?_, fun θ'' ha => ?_⟩
      · rw [Bool.eq_false_iff]
        intro hs
        rcases h.shared t hs with hs | ⟨ha, -⟩
        · rw [hsh] at hs; cases hs
        · exact hne (halone θ ha).symm
      · rcases eq_or_ne θ'' θ with rfl | hne'
        · rw [hself] at ha
          rcases h.about t ha with ha | hs
          · exact halone _ ha
          · rw [hsh] at hs; cases hs
        · rw [hother θ'' hne'] at ha; exact halone θ'' ha
  case out =>
    intro θ₁ θ₂ t h₁ h₂
    rcases eq_or_ne θ₁ θ with rfl | hne₁ <;> rcases eq_or_ne θ₂ θ₁ with rfl | hne
    · rfl
    · rw [hself] at h₁
      rw [hother θ₂ hne] at h₂
      exact absurd (h.place t (.inr h₁)) (hapart θ₂ t hne h₂)
    · rfl
    · rw [hother θ₁ hne₁] at h₁
      rcases eq_or_ne θ₂ θ with rfl | hne₂
      · rw [hself] at h₂
        exact absurd (h.place t (.inr h₂)) (hapart θ₁ t hne₁ h₁)
      · rw [hother θ₂ hne₂] at h₂
        exact hA.out θ₁ θ₂ t h₁ h₂
  case outside =>
    intro θ' t ho
    rcases eq_or_ne θ' θ with rfl | hne
    · rw [hself] at ho; exact h.outside t ho
    · rw [hother θ' hne] at ho
      exact fun ht => hapart θ' t hne ho (h.place t (.inl ht))

/-- A step that moves `θ` only. -/
theorem Apart.goto (hA : Apart s) (hcreate : ∀ t, pc ≠ .create t)
    (habout : ∀ t, pc.about = some t → (s.thread θ).about = some t ∨ s.shared t = true)
    (hout : pc.out = (s.thread θ).out) : Apart (s.goto θ pc) :=
  hA.moves θ pc ⟨rfl, rfl, ⟨hA.set.nodup, hA.set.ordered⟩, fun _ => .inl, hcreate, habout,
    fun t => by rw [hout]; exact id, fun t ht => hA.outside θ t (hout ▸ ht)⟩

/-- A step that takes a timer out of the set. -/
theorem Apart.take (hA : Apart s) (ht : t ∈ s.m_timer_set) (hpc : pc.out = some t)
    (habout : (s.thread θ).about = some t) (hcreate : ∀ t, pc ≠ .create t) :
    Apart ((s.erase t).goto θ pc) := by
  rw [erase_of_mem ht]
  have hmem : ∀ u, u ∈ s.m_timer_set.erase t ↔ u ≠ t ∧ u ∈ s.m_timer_set := fun u =>
    hA.set.nodup.mem_erase_iff
  refine hA.moves θ pc ⟨rfl, rfl, ?_, fun _ => .inl, hcreate, ?_, ?_, ?_⟩
  · exact hA.set.sublist List.erase_sublist fun _ _ => rfl
  · intro u hu
    rw [about_of_out hpc] at hu
    exact .inl (hu ▸ habout)
  · rintro u (hu | hu)
    · exact .inl ((hmem u).mp hu).2
    · rw [hpc, Option.some.injEq] at hu
      exact .inl (hu ▸ ht)
  · intro u hu
    rw [hpc, Option.some.injEq] at hu
    exact fun h => ((hmem u).mp h).1 hu.symm

/-- A step that puts a timer into the set. -/
theorem Apart.put (hA : Apart s) (hout : (s.thread θ).out = some t) (hpc : pc.out = none)
    (habout : ∀ u, pc.about = some u → u = t) : Apart ((s.insert t).goto θ pc) := by
  refine hA.moves θ pc ⟨by simp [State.goto], by simp [State.goto],
    ⟨(hA.set.insert t).nodup, (hA.set.insert t).ordered⟩, ?_, ?_, ?_, ?_, ?_⟩
  · intro u hu
    exact .inl (by simpa [State.goto] using hu)
  · rintro u rfl
    simp [ThreadPc.out] at hpc
  · intro u hu
    exact .inl (habout u hu ▸ about_of_out hout)
  · rintro u (hu | hu)
    · rcases mem_insert.mp hu with rfl | hu
      · exact .inr hout
      · exact .inl hu
    · rw [hpc] at hu; cases hu
  · intro u hu
    rw [hpc] at hu; cases hu

/-- A step that writes a field of a timer that is out. -/
theorem Apart.write (hA : Apart s) (hout : (s.thread θ).out = some t) (x : Timer κ)
    (hpc : pc.out = some t) (hcreate : ∀ t, pc ≠ .create t) :
    Apart ((s.setTimer t x).goto θ pc) := by
  have hset := hA.set.setTimer (hA.outside θ t hout) x
  refine hA.moves θ pc ⟨rfl, rfl, ⟨hset.nodup, hset.ordered⟩, fun _ => .inl, hcreate, ?_, ?_, ?_⟩
  · intro u hu
    rw [about_of_out hpc] at hu
    exact .inl (hu ▸ about_of_out hout)
  · intro u
    rw [hpc, hout]; exact id
  · intro u hu
    rw [hpc] at hu
    exact hA.outside θ u (hu ▸ hout)

/-- The end of `addTimer`, which hands the timer to its caller. -/
theorem Apart.share (hA : Apart s) (habout : (s.thread θ).about = some t)
    (hout : (s.thread θ).out = none) :
    Apart { s.goto θ .idle with shared := Function.update s.shared t true } := by
  have hcreate : s.thread θ ≠ .create t := fun h => by rw [h] at hout; cases hout
  refine hA.moves θ .idle ⟨rfl, rfl, ⟨hA.set.nodup, hA.set.ordered⟩, fun u hu => ?_, by simp,
    fun _ hu => (by cases hu), ?_, fun _ hu => by cases hu⟩
  · rcases eq_or_ne u t with rfl | hne
    · exact .inr ⟨habout, hcreate⟩
    · simp only [Function.update_of_ne hne] at hu
      exact .inl hu
  · intro u
    rw [hout]; exact id

/-- The locked section of `cancelTimer`, whether or not the timer is in the set. -/
theorem Apart.cancel (hA : Apart s) (θ : Θ) (t : Nat) (count : Nat → Nat) :
    Apart { ((s.setTimer t { s.timer t with m_callback := none }).erase t).goto θ .idle with
      cancelled := count } := by
  rw [erase_eq]
  refine hA.moves θ .idle ⟨rfl, rfl, hA.set.next List.erase_sublist fun u _ => ?_, fun _ => .inl,
    by simp, fun _ hu => (by cases hu), ?_, fun _ hu => by cases hu⟩
  · show (Function.update s.timer t _ u).m_next = _
    rcases eq_or_ne u t with rfl | hne
    · rw [Function.update_self]
    · rw [Function.update_of_ne hne]
  · rintro u (hu | hu)
    · exact .inl (List.mem_of_mem_erase hu)
    · cases hu

/-- What a thread knows behind the creation of a timer it knew before, the new timer apart. -/
theorem of_update_create {f : ThreadPc → Option Nat} {θ' : Θ} {u : Nat} (hu : u ≠ t)
    (hf : ∀ v, f (.create t) = some v → v = t)
    (h : f (Function.update s.thread θ (.create t) θ') = some u) : f (s.thread θ') = some u := by
  rcases eq_or_ne θ' θ with rfl | hne
  · rw [Function.update_self] at h
    exact absurd (hf u h) hu
  · rwa [Function.update_of_ne hne] at h

/-- Only the thread that has created a timer knows it. -/
theorem Apart.eq_of_about_create (hA : Apart s) (hb : s.built t = false) {θ' : Θ}
    (h : (Function.update s.thread θ (.create t) θ').about = some t) : θ' = θ := by
  by_contra hne
  rw [Function.update_of_ne hne] at h
  rw [hA.about θ' t h] at hb
  cases hb

/-- A new timer. -/
theorem Apart.addTimer (hA : Apart s) (hb : s.built t = false) (x : Timer κ) :
    Apart { (s.setTimer t x).goto θ (.create t) with built := Function.update s.built t true } := by
  have hne_of_built : ∀ u, s.built u = true → u ≠ t := by
    rintro u hu rfl
    rw [hb] at hu; cases hu
  have hbuilt : ∀ u, s.built u = true → Function.update s.built t true u = true := fun u hu => by
    rw [Function.update_of_ne (hne_of_built u hu)]; exact hu
  constructor
  case set =>
    have ht : t ∉ s.m_timer_set := fun ht => hne_of_built t (hA.mem t ht) rfl
    exact ⟨(hA.set.setTimer ht x).nodup, (hA.set.setTimer ht x).ordered⟩
  case about =>
    intro θ' u hu
    rcases eq_or_ne u t with rfl | hne
    · exact Function.update_self _ _ _
    · exact hbuilt u (hA.about θ' u (of_update_create hne (by simp [ThreadPc.about]) hu))
  case mem => exact fun u hu => hbuilt u (hA.mem u hu)
  case shared => exact fun u hu => hbuilt u (hA.shared u hu)
  case create =>
    intro θ' u hu
    rcases eq_or_ne u t with rfl | hne
    · have hθ' : θ' = θ := hA.eq_of_about_create hb (by
        rw [show Function.update s.thread θ _ θ' = _ from hu]
        rfl)
      refine ⟨?_, fun θ'' ha => (hA.eq_of_about_create hb ha).trans hθ'.symm⟩
      show s.shared u = false
      rw [Bool.eq_false_iff]
      exact fun hs => hne_of_built u (hA.shared u hs) rfl
    · have hu' : s.thread θ' = .create u := by
        refine eq_of_update_eq ?_ hu
        simpa using hne.symm
      refine ⟨(hA.create θ' u hu').1, fun θ'' ha => (hA.create θ' u hu').2 θ'' ?_⟩
      exact of_update_create hne (by simp [ThreadPc.about]) ha
  case out =>
    intro θ₁ θ₂ u h₁ h₂
    rcases eq_or_ne u t with rfl | hne
    · exact (hA.eq_of_about_create hb (about_of_out h₂)).trans
        (hA.eq_of_about_create hb (about_of_out h₁)).symm
    · exact hA.out θ₁ θ₂ u (of_update_create hne (by simp [ThreadPc.out]) h₁)
        (of_update_create hne (by simp [ThreadPc.out]) h₂)
  case outside =>
    intro θ' u ho hu
    have hne := hne_of_built u (hA.mem u hu)
    exact hA.outside θ' u (of_update_create hne (by simp [ThreadPc.out]) ho) hu

/-- The steps of a call. -/
theorem apart_threadStep {now : UInt64} (hA : Apart s)
    (h : threadStep s θ now (s.thread θ) = some s') : Apart s' := by
  cases hpc : s.thread θ <;> simp only [threadStep, hpc] at h
  case idle => cases h
  case create t =>
    cases h
    exact hA.put (by rw [hpc]; rfl) rfl (by simp [ThreadPc.about])
  case cancelTest t =>
    cases h
    refine hA.goto ?_ ?_ ?_ <;> split <;> simp_all [ThreadPc.about, ThreadPc.out]
  case cancelErase t =>
    cases h
    exact hA.cancel θ t _
  case refreshTest t =>
    cases h
    refine hA.goto ?_ ?_ ?_ <;> split <;> simp_all [ThreadPc.about, ThreadPc.out]
  case refreshErase t =>
    split at h <;> cases h
    · exact hA.goto (by simp) (fun _ hu => by cases hu) (by rw [hpc]; rfl)
    · rename_i hf
      exact hA.take (mem_of_find hf) rfl (by rw [hpc]; rfl) (by simp)
  case refreshRead t =>
    cases h
    exact hA.goto (by simp) (by simp [hpc, ThreadPc.about]) (by rw [hpc]; rfl)
  case refreshWrite t next =>
    cases h
    exact hA.write (by rw [hpc]; rfl) _ rfl (by simp)
  case refreshInsert t =>
    cases h
    exact hA.put (by rw [hpc]; rfl) rfl (fun _ hu => by cases hu)
  case resetSame t ms from_now =>
    cases h
    refine hA.goto ?_ ?_ ?_ <;> split <;> simp_all [ThreadPc.about, ThreadPc.out]
  case resetTest t ms from_now =>
    cases h
    refine hA.goto ?_ ?_ ?_ <;> split <;> simp_all [ThreadPc.about, ThreadPc.out]
  case resetErase t ms from_now =>
    split at h <;> cases h
    · exact hA.goto (by simp) (fun _ hu => by cases hu) (by rw [hpc]; rfl)
    · rename_i hf
      exact hA.take (mem_of_find hf) rfl (by rw [hpc]; rfl) (by simp)
  case resetStart t ms from_now =>
    cases h
    refine hA.goto ?_ ?_ ?_ <;> split <;> simp_all [ThreadPc.about, ThreadPc.out]
  case resetRead t ms next =>
    cases h
    exact hA.goto (by simp) (by simp [hpc, ThreadPc.about]) (by rw [hpc]; rfl)
  case resetWriteMs t ms start =>
    cases h
    exact hA.write (by rw [hpc]; rfl) _ rfl (by simp)
  case resetWriteNext t ms start =>
    cases h
    exact hA.write (by rw [hpc]; rfl) _ rfl (by simp)
  case resetInsert t =>
    cases h
    exact hA.put (by rw [hpc]; rfl) rfl (by simp [ThreadPc.about])
  case addTest t =>
    split at h <;> cases h
    · exact hA.goto (by simp) (by simp [hpc, ThreadPc.about]) (by rw [hpc]; rfl)
    · exact hA.share (by rw [hpc]; rfl) (by rw [hpc]; rfl)
  case addTickle t =>
    cases h
    exact hA.share (by rw [hpc]; rfl) (by rw [hpc]; rfl)

/-- Every step keeps the timers apart. -/
theorem apart_step {a : Action Θ κ} (hA : Apart s) (h : step s a = some s') : Apart s' := by
  cases a with
  | addTimer θ t ms callback recurring now =>
    simp only [step] at h
    split at h <;> cases h
    rename_i hc
    exact hA.addTimer hc.2 _
  | cancel θ t | refresh θ t | reset θ t ms from_now =>
    simp only [step] at h
    split at h <;> cases h
    rename_i hc
    exact hA.goto (by simp) (by simp [ThreadPc.about, hc.2]) (by rw [hc.1]; rfl)
  | run θ now => exact apart_threadStep hA h
  | listExpiredCallback now probe =>
    simp only [step] at h
    split at h <;> cases h
    exact hA.expire now probe
  | doFunc =>
    simp only [step, State.doFunc] at h
    split at h <;> cases h
    exact ⟨⟨hA.set.nodup, hA.set.ordered⟩, hA.about, hA.mem, hA.shared, hA.create, hA.out,
      hA.outside⟩

theorem reachable_apart (h : (system Θ κ).Reachable s) : Apart s :=
  LTS.ReachableUnder.invariant (I := Apart) (fun _ h => h ▸ apart_initial)
    (fun _ _ _ hA _ hs => apart_step hA hs) h

end

end LimWebserver.TimerManager
