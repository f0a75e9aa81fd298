import LimWebserver.Coroutine.SchedulerAddTask

namespace LimWebserver.Scheduler

open LimWebserver.Lib

/-!
# Coroutine — `Scheduler`: over how many processors its tasks spread

Nothing deactivates a processor, and nothing moves `m_lastActiveIdx`: a task that is created by a
thread outside goes to one and the same processor every time, a task that is created by a task goes
to the processor of that one, and a task that is woken goes back to where it has run.

* `Pool` — the processors of a scheduler that has started, with what each of them has run;
* `home` — the processor that tasks from outside go to;
* `Pool.At` — a processor has tasks, or a task goes back to it; `at_step` — a step spreads the tasks
  to the home only;
* `ran_at` — no other processor than these ever runs a task.
-/

variable {τ : Type*}

/-- The processors of a scheduler behind `start`. -/
structure Pool (τ : Type*) where
  pc : Nat → RunPc Unit
  queues : Nat → Queues τ
  /-- `Task::m_processor` -/
  m_processor : τ → Option Nat
  /-- which processor has run which task, the latest one last -/
  ran : List (Nat × τ)

/-- The steps of the processors and of the threads around them. -/
inductive PoolAction (τ : Type*)
  /-- `createTask` by a task that runs on processor `current`, or by a thread outside -/
  | createTask (t : τ) (current : Option Nat)
  /-- `task->wake()` -/
  | wake (t : τ)
  /-- the next step of a processor; `idle()` may end at any time -/
  | loop (k : Nat) (stopping : Bool) (out : TaskState)
  deriving DecidableEq, Repr

namespace Pool

/-- `processor->addTask(task)` -/
def give (s : Pool τ) (k : Nat) (t : τ) : Pool τ :=
  { s with queues := Function.update s.queues k ((s.queues k).enqueueNew t) }

/-- The task that the next step of this processor swaps in. -/
def swapped (s : Pool τ) (k : Nat) : Option τ :=
  if s.pc k = .running then (s.queues k).m_curTask else none

end Pool

section
variable [DecidableEq τ] (m_processors : List Nat) (m_lastActiveIdx : Nat)

/-- One step of `Processor::run`; the task that is swapped in has its processor set. -/
def poolLoop (s : Pool τ) (k : Nat) (stopping : Bool) (out : TaskState) : Option (Pool τ) :=
  if s.pc k = .idle () then some { s with pc := Function.update s.pc k .afterIdle }
  else
    (runStep () stopping out (s.pc k) (s.queues k)).map fun r =>
      { pc := Function.update s.pc k r.1
        queues := Function.update s.queues k r.2
        m_processor := fun t => if s.swapped k = some t then some k else s.m_processor t
        ran := s.ran ++ (s.swapped k).toList.map fun t => (k, t) }

/-- One step of the pool. -/
def poolStep (s : Pool τ) : PoolAction τ → Option (Pool τ)
  | .createTask t current =>
    if current.all fun k => (s.swapped k).isSome then
      some (s.give
        (addTask (fun _ => true) m_lastActiveIdx m_processors (s.m_processor t) current) t)
    else none
  | .wake t => (s.m_processor t).map fun k => s.give k t
  | .loop k stopping out => poolLoop s k stopping out

/-- A pool that has not seen a task. -/
def Pool.initial : Pool τ where
  pc := fun _ => .outer
  queues := fun _ => Queues.empty
  m_processor := fun _ => none
  ran := []

/-- The system of the pool. -/
def pool (τ : Type*) [DecidableEq τ] (m_processors : List Nat) (m_lastActiveIdx : Nat) :
    LTS (Pool τ) (PoolAction τ) where
  init := fun s => s = .initial
  step := poolStep m_processors m_lastActiveIdx

/-- The processor that `addTask` chooses for tasks from outside. -/
def home : Nat := addTask (fun _ => true) m_lastActiveIdx m_processors none none

/-- A processor has a task, or a task goes back to it when it is woken. -/
def Pool.At (s : Pool τ) (k : Nat) : Prop :=
  (∃ t, (s.queues k).Has t) ∨ ∃ t, s.m_processor t = some k

variable {m_processors m_lastActiveIdx} {s s' : Pool τ} {k : Nat}

omit [DecidableEq τ] in
theorem Pool.At.of_swapped {t : τ} (h : s.swapped k = some t) : s.At k := by
  unfold Pool.swapped at h
  split_ifs at h
  exact .inl ⟨t, .inr (.inr h)⟩

/-- Where `addTask` gives a task to. -/
theorem addTask_cases (processor current : Option Nat) :
    addTask (fun _ => true) m_lastActiveIdx m_processors processor current =
        home m_processors m_lastActiveIdx ∨
      processor = some (addTask (fun _ => true) m_lastActiveIdx m_processors processor current) ∨
      current = some (addTask (fun _ => true) m_lastActiveIdx m_processors processor current) := by
  cases processor with
  | some k => exact .inr (.inl rfl)
  | none =>
    cases current with
    | some k => exact .inr (.inr rfl)
    | none => exact .inl rfl

omit [DecidableEq τ] in
/-- A new entry is the only one that comes to a processor. -/
theorem has_give {t u : τ} {k' : Nat} (h : ((s.give k t).queues k').Has u) :
    k' = k ∨ (s.queues k').Has u := by
  rcases eq_or_ne k' k with rfl | hne
  · exact .inl rfl
  · have hq : (s.give k t).queues k' = s.queues k' := Function.update_of_ne hne _ _
    exact .inr (hq ▸ h)

omit [DecidableEq τ] in
/-- The loop makes no entries but that of a task that yields. -/
theorem has_runStep {pc pc' : RunPc Unit} {q q' : Queues τ} {stopping : Bool} {out : TaskState}
    {t : τ} (h : runStep () stopping out pc q = some (pc', q')) (ht : q'.Has t) : q.Has t := by
  by_cases hpc : pc = .running
  · subst hpc
    simp only [runStep, Option.map_eq_some_iff, Prod.mk.injEq] at h
    obtain ⟨u, hu, -, rfl⟩ := h
    rcases ht with hn | hr | hc
    · exact .inl (by simpa using hn)
    · cases out with
      | READY =>
        rcases List.mem_append.mp hr with hr | hr
        · exact .inr (.inl hr)
        · exact .inr (.inr (List.mem_singleton.mp hr ▸ hu))
      | _ => exact .inr (.inl hr)
    · cases out <;> simp [Queues.swapOut] at hc
  · exact runStep_has hpc h ht

/-- **Step.** A step brings tasks to no processor but to one that has some already, and to the one
    for tasks from outside. -/
theorem at_step {a : PoolAction τ} (hs : poolStep m_processors m_lastActiveIdx s a = some s') :
    (∀ k, s'.At k → k = home m_processors m_lastActiveIdx ∨ s.At k) ∧
      ∃ d, s'.ran = s.ran ++ d ∧ ∀ e ∈ d, s.At e.1 := by
  have hgive : ∀ {k : Nat} {t : τ}, (k = home m_processors m_lastActiveIdx ∨ s.At k) →
      (∀ k', (s.give k t).At k' → k' = home m_processors m_lastActiveIdx ∨ s.At k') ∧
        ∃ d, (s.give k t).ran = s.ran ++ d ∧ ∀ e ∈ d, s.At e.1 := by
    intro k t hk
    refine ⟨?_, [], (List.append_nil _).symm, by simp⟩
    rintro k' (⟨u, hu⟩ | hu)
    · rcases has_give hu with rfl | hu
      · exact hk
      · exact .inr (.inl ⟨u, hu⟩)
    · exact .inr (.inr hu)
  cases a with
  | createTask t current =>
    simp only [poolStep, Option.ite_none_right_eq_some, Option.some.injEq] at hs
    obtain ⟨hcur, rfl⟩ := hs
    apply hgive
    rcases addTask_cases (s.m_processor t) current with h | h | h
    · exact .inl h
    · exact .inr (.inr ⟨t, h⟩)
    · rw [h, Option.all_some, Option.isSome_iff_exists] at hcur
      obtain ⟨u, hu⟩ := hcur
      exact .inr (.of_swapped hu)
  | wake t =>
    obtain ⟨k, hk, rfl⟩ := Option.map_eq_some_iff.mp hs
    exact hgive (.inr (.inr ⟨t, hk⟩))
  | loop k stopping out =>
    simp only [poolStep, poolLoop] at hs
    split_ifs at hs
    · obtain rfl := Option.some.inj hs
      exact ⟨fun k' hk => .inr hk, [], (List.append_nil _).symm, by simp⟩
    · obtain ⟨⟨pc', q'⟩, hrun, rfl⟩ := Option.map_eq_some_iff.mp hs
      refine ⟨?_, _, rfl, ?_⟩
      · rintro k' (⟨t, ht⟩ | ⟨t, ht⟩)
        · refine .inr (.inl ?_)
          change (Function.update s.queues k q' k').Has t at ht
          rcases eq_or_ne k' k with rfl | hne
          · rw [Function.update_self] at ht
            exact ⟨t, has_runStep hrun ht⟩
          · rw [Function.update_of_ne hne] at ht
            exact ⟨t, ht⟩
        · dsimp only at ht
          split_ifs at ht with hswap
          · obtain rfl := Option.some.inj ht
            exact .inr (.of_swapped hswap)
          · exact .inr (.inr ⟨t, ht⟩)
      · intro e he
        obtain ⟨t, ht, rfl⟩ := List.mem_map.mp he
        exact .of_swapped (Option.mem_toList.mp ht)

/-- **No spreading.** Whatever happens to a scheduler that has started, a task only ever runs on the
    processor that tasks from outside go to, or on one that has had tasks before. -/
theorem ran_at {as : List (PoolAction τ)}
    (h : (pool τ m_processors m_lastActiveIdx).exec s as = some s') :
    ∃ d, s'.ran = s.ran ++ d ∧
      ∀ e ∈ d, e.1 = home m_processors m_lastActiveIdx ∨ s.At e.1 := by
  induction as generalizing s with
  | nil =>
    obtain rfl := Option.some.inj h
    exact ⟨[], (List.append_nil _).symm, by simp⟩
  | cons a as ih =>
    obtain ⟨t, hs, ht⟩ := Option.bind_eq_some_iff.mp h
    obtain ⟨hat, d₁, hd₁, hran₁⟩ := at_step hs
    obtain ⟨d₂, hd₂, hran₂⟩ := ih ht
    refine ⟨d₁ ++ d₂, by rw [hd₂, hd₁, List.append_assoc], fun e he => ?_⟩
    rcases List.mem_append.mp he with he | he
    · exact .inr (hran₁ e he)
    · rcases hran₂ e he with hhome | hte
      · exact .inl hhome
      · exact hat e.1 hte

/-- Three processors; a task from outside makes another one, is held and woken. -/
def spread : List (PoolAction Nat) :=
  [.createTask 7 none] ++ List.replicate 6 (.loop 1 false .HOLD) ++ [.createTask 8 (some 1)] ++
    List.replicate 5 (.loop 1 false .HOLD) ++ [.wake 7] ++ List.replicate 11 (.loop 1 false .TERM)

/-- The second of the three processors does all the work. -/
theorem ran_at_spread :
    ∃ s : Pool Nat, (pool Nat [0, 1, 2] 4).exec .initial spread = some s ∧
      s.ran = [(1, 7), (1, 8), (1, 7)] ∧ ∃ d, s.ran = [] ++ d ∧
        ∀ e ∈ d, e.1 = home [0, 1, 2] 4 ∨ (Pool.initial : Pool Nat).At e.1 := by
  have hr : (pool Nat [0, 1, 2] 4).exec .initial spread = some _ := rfl
  exact ⟨_, hr, by decide, ran_at hr⟩

end

end LimWebserver.Scheduler
