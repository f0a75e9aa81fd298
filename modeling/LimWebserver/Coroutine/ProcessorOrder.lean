import LimWebserver.Coroutine.Processor
import Mathlib.Data.List.Nodup

namespace LimWebserver.Processor

open LimWebserver.Lib

/-!
# Coroutine — the order in which a processor runs its tasks

* `line` — the task that is being run and the ones of `m_runableQueue` behind it;
* `Recorded` — a processor with the tasks that it has run and the ones that have been queued;
* `line_first` — the tasks in line are run next, in their order;
* `inOrder_iff` — tasks are run in the order in which they have been queued exactly if no task
  yields while new tasks wait, as `getNextTask` takes these over only when the line is empty;
* `yielding_starves` — while the tasks in line go on yielding they take turns, and no new task is
  run.
-/

variable {ι Θ τ : Type*}

/-- The tasks in line: the current one, and the ones that are ready behind it. -/
def line (q : Queues τ) : List τ := q.m_curTask.toList ++ q.m_runableQueue

/-- The loop is about to fetch a task. -/
def Fetching : RunPc ι → Prop
  | .dequeue _ | .concatenate _ | .dequeueAgain _ | .idle _ | .afterIdle => True
  | _ => False

/-- What a step of the loop does to the line and to the new tasks. -/
theorem runStep_line {entry : ι} {stopping : Bool} {out : TaskState} {pc pc' : RunPc ι}
    {q q' : Queues τ} (hcur : Fetching pc → q.m_curTask = none)
    (h : runStep entry stopping out pc q = some (pc', q')) :
    (pc = .running ∧ ∃ t rest, q.m_curTask = some t ∧ line q = t :: rest ∧
      line q' = rest ++ (if out = .READY then [t] else []) ∧ q'.m_newQueue = q.m_newQueue) ∨
    ((pc = .afterIdle ∨ ∃ flag, pc = .concatenate flag) ∧ line q' = line q ++ q.m_newQueue ∧
      q'.m_newQueue = []) ∨
    (pc ≠ .running ∧ line q' = line q ∧ q'.m_newQueue = q.m_newQueue) := by
  cases pc with
  | running =>
    simp only [runStep, Option.map_eq_some_iff, Prod.mk.injEq] at h
    obtain ⟨t, ht, -, rfl⟩ := h
    refine .inl ⟨rfl, t, q.m_runableQueue, ht, by simp [line, ht], ?_, q.swapOut_newQueue t out⟩
    cases out <;> simp [line, Queues.swapOut]
  | dequeue flag | dequeueAgain flag =>
    have hcur := hcur trivial
    simp only [runStep] at h
    split at h <;> cases h
    · next hq => exact .inr (.inr ⟨by simp, by simp [line, hcur, hq], rfl⟩)
    · exact .inr (.inr ⟨by simp, rfl, rfl⟩)
  | concatenate flag =>
    cases h
    exact .inr (.inl ⟨.inr ⟨flag, rfl⟩, by simp [line, Queues.concatenate], rfl⟩)
  | afterIdle =>
    cases h
    exact .inr (.inl ⟨.inl rfl, by simp [line, Queues.concatenate], rfl⟩)
  | test =>
    simp only [runStep] at h
    split at h <;> cases h <;> exact .inr (.inr ⟨by simp, rfl, rfl⟩)
  | outer | inner => cases h; exact .inr (.inr ⟨by simp, rfl, rfl⟩)
  | idle | exited => cases h

/-- Where a step of the loop leaves a current task. -/
theorem runStep_current {entry : ι} {stopping : Bool} {out : TaskState} {pc pc' : RunPc ι}
    {q q' : Queues τ} (hcur : Fetching pc → q.m_curTask = none) (hpc : pc ≠ .outer)
    (h : runStep entry stopping out pc q = some (pc', q')) :
    (Fetching pc' → q'.m_curTask = none) ∧
      (pc' = .outer → q'.m_curTask ≠ none → stopping = true) := by
  cases pc with
  | running =>
    simp only [runStep, Option.map_eq_some_iff, Prod.mk.injEq] at h
    obtain ⟨t, -, rfl, rfl⟩ := h
    exact ⟨fun _ => by cases out <;> rfl, by simp⟩
  | dequeue flag =>
    have hcur := hcur trivial
    simp only [runStep] at h
    split at h <;> cases h
    · exact ⟨by cases flag <;> exact False.elim, by cases flag <;> simp [RunPc.caller]⟩
    · exact ⟨fun _ => hcur, fun _ hc => absurd hcur hc⟩
  | dequeueAgain flag =>
    have hcur := hcur trivial
    simp only [runStep] at h
    split at h <;> cases h <;>
      exact ⟨by cases flag <;> exact False.elim, by cases flag <;> simp [RunPc.caller]⟩
  | concatenate flag =>
    cases h
    exact ⟨fun _ => hcur trivial, by simp⟩
  | afterIdle =>
    cases h
    exact ⟨False.elim, fun _ hc => absurd (hcur trivial) hc⟩
  | test =>
    simp only [runStep] at h
    split at h <;> cases h
    · next hq => exact ⟨fun _ => hq, by simp⟩
    · exact ⟨False.elim, by simp⟩
  | inner =>
    cases h
    split
    · exact ⟨False.elim, by simp⟩
    · next hs =>
      refine ⟨False.elim, fun _ hc => ?_⟩
      cases stopping with
      | true => rfl
      | false => simp [Option.isSome_iff_ne_none, hc] at hs
  | outer => exact absurd rfl hpc
  | idle | exited => cases h

/-! ### Where there is a current task -/

/-- A current task is there from `getNextTask` on until it has swapped out; when the processor is
    stopped before it is swapped in, it stays. -/
structure Current (s : State Θ τ) : Prop where
  fetching : Fetching s.pc → s.queues.m_curTask = none
  outer : s.pc = .outer → s.queues.m_curTask ≠ none → s.m_started = false ∧ s.starting = false
  starting : s.starting = true → s.pc = .outer ∨ s.pc = .exited

variable {s s' : State Θ τ}

theorem fetching_notifyOne {pc : RunPc IdlePc} : Fetching (notifyOne pc) ↔ Fetching pc := by
  unfold notifyOne
  split <;> rfl

theorem notifyOne_eq_of_not_fetching {pc pc' : RunPc IdlePc} (h : ¬ Fetching pc') :
    notifyOne pc = pc' ↔ pc = pc' := by
  unfold notifyOne
  split
  · constructor <;> rintro rfl <;> exact absurd trivial h
  · rfl

/-- `tickle()` moves the processor thread only inside `idle()`. -/
theorem Current.tickled (h : Current s) : Current s.tickled := by
  have hpc : s.tickled.pc = notifyOne s.pc ∨ s.tickled.pc = s.pc := by
    rcases tickle_cases s.pc s.toFlags with ⟨-, ht⟩ | ⟨-, ht⟩
    · exact .inl (congrArg Prod.fst ht)
    · exact .inr (congrArg Prod.fst ht)
  rcases hpc with hpc | hpc
  · have houter : notifyOne s.pc = .outer ↔ s.pc = .outer := notifyOne_eq_of_not_fetching id
    have hexited : notifyOne s.pc = .exited ↔ s.pc = .exited := notifyOne_eq_of_not_fetching id
    refine ⟨fun hf => h.fetching (fetching_notifyOne.mp (hpc ▸ hf)), fun ho => ?_, fun hs => ?_⟩
    · exact h.outer (houter.mp (hpc ▸ ho))
    · rw [hpc, houter, hexited]
      exact h.starting hs
  · exact ⟨fun hf => h.fetching (hpc ▸ hf), fun ho => h.outer (hpc ▸ ho),
      fun hs => hpc.symm ▸ h.starting hs⟩

/-- Outside `idle()` the processor thread is in the loop. -/
theorem loopStep_eq (out : TaskState) (h : ∀ i, s.pc ≠ .idle i) :
    loopStep out s = (runStep .enter (!s.m_started) out s.pc s.queues).map fun r =>
      { s with pc := r.1, queues := r.2 } := by
  unfold loopStep
  split
  · next i hpc => exact absurd hpc (h i)
  · rfl

/-- The loop keeps track of its current task. -/
theorem Current.loop {out : TaskState} (h : Current s) (hi : Inv s)
    (hs : loopStep out s = some s') : Current s' := by
  have hnot : s.pc ≠ .outer → s.pc ≠ .exited → s.starting = false := fun ho he => by
    cases hst : s.starting with
    | false => rfl
    | true => exact ((h.starting hst).elim ho he).elim
  cases hpc : s.pc with
  | idle i =>
    simp only [loopStep, hpc, Option.map_eq_some_iff] at hs
    obtain ⟨r, hr, rfl⟩ := hs
    have hcur := h.fetching (by rw [hpc]; trivial)
    have hst := hnot (by simp [hpc]) (by simp [hpc])
    exact ⟨fun _ => hcur, fun _ hc => absurd hcur hc, fun hs => absurd hs (by simp [hst])⟩
  | outer =>
    simp only [loopStep, hpc, runStep, Option.map_some, Option.some.injEq] at hs
    subst hs
    cases hm : s.m_started with
    | false => exact ⟨False.elim, by simp, fun _ => .inr rfl⟩
    | true =>
      have hst : s.starting = false := by
        by_contra hne
        rw [hi.starting (by simpa using hne)] at hm
        cases hm
      refine ⟨fun _ => ?_, by simp, fun hs => absurd hs (by simp [hst])⟩
      by_contra hc
      rw [(h.outer hpc hc).1] at hm
      cases hm
  | exited => simp [loopStep, hpc, runStep] at hs
  | _ =>
    have hne : s.pc ≠ .outer := by simp [hpc]
    have hst := hnot hne (by simp [hpc])
    rw [loopStep_eq out (by simp [hpc]), Option.map_eq_some_iff] at hs
    obtain ⟨⟨pc', q'⟩, hr, rfl⟩ := hs
    obtain ⟨hf, ho⟩ := runStep_current h.fetching hne hr
    refine ⟨hf, fun hpc' hc => ⟨?_, hst⟩, fun hs => absurd hs (by simp [hst])⟩
    simpa using ho hpc' hc

/-- **Step.** Every step keeps track of the current task. -/
theorem Current.step [DecidableEq Θ] {a : Action Θ τ} (h : Current s) (hi : Inv s)
    (hs : Processor.step s a = some s') : Current s' := by
  cases a with
  | enqueue θ t =>
    simp only [Processor.step] at hs
    split at hs <;> cases hs
    exact ⟨h.fetching, h.outer, h.starting⟩
  | tickle θ =>
    simp only [Processor.step] at hs
    split at hs <;> cases hs <;> exact ⟨h.tickled.fetching, h.tickled.outer, h.tickled.starting⟩
  | stop θ =>
    simp only [Processor.step] at hs
    split at hs
    · split at hs <;> cases hs
      · exact ⟨h.fetching, h.outer, h.starting⟩
      · exact h
    · cases hs
  | stopFlag θ =>
    simp only [Processor.step] at hs
    split at hs <;> cases hs
    next hθ =>
    have hst := hi.stopping θ (.inl hθ)
    exact ⟨h.fetching, fun _ _ => ⟨rfl, hst⟩, h.starting⟩
  | start =>
    simp only [Processor.step, Option.ite_none_right_eq_some, Option.some.injEq] at hs
    obtain ⟨hst, rfl⟩ := hs
    exact ⟨h.fetching, fun ho hc => absurd hst (by simp [(h.outer ho hc).2]), by simp⟩
  | loop out => exact h.loop hi hs
  | spurious =>
    simp only [Processor.step] at hs
    split at hs <;> cases hs
    next hpc =>
    refine ⟨fun _ => h.fetching (by rw [hpc]; trivial), by simp, fun hs => ?_⟩
    have := h.starting hs
    rw [hpc] at this
    simp at this

/-! ### The tasks that have been run -/

/-- A processor, with the tasks that it has run and the ones that have been queued so far, by
    `addTask` or after they have yielded. -/
structure Recorded (Θ τ : Type*) extends State Θ τ where
  ran : List (Entry τ)
  queued : List (Entry τ)

/-- The task that a step runs. -/
def runs (s : State Θ τ) : Action Θ τ → List (Entry τ)
  | .loop _ => if s.pc = .running then s.queues.m_curTask.toList else []
  | _ => []

/-- The task that a step queues. -/
def queues (s : State Θ τ) : Action Θ τ → List (Entry τ)
  | .enqueue _ t => [⟨t, s.calls⟩]
  | .loop .READY => if s.pc = .running then s.queues.m_curTask.toList else []
  | _ => []

section
variable [DecidableEq Θ]

/-- One step, recorded. -/
def recordedStep (r : Recorded Θ τ) (a : Action Θ τ) : Option (Recorded Θ τ) :=
  (step r.toState a).map fun s =>
    ⟨s, r.ran ++ runs r.toState a, r.queued ++ queues r.toState a⟩

/-- The recorded processor system. -/
def recorded (Θ τ : Type*) [DecidableEq Θ] : LTS (Recorded Θ τ) (Action Θ τ) where
  init := fun r => r = ⟨initial, [], []⟩
  step := recordedStep

/-- Tasks have been run, and will be, in the order in which they have been queued. -/
def InOrder (r : Recorded Θ τ) : Prop :=
  r.ran ++ line r.queues ++ r.queues.m_newQueue = r.queued

/-- The condition on a step: no task yields while new tasks wait. -/
def Polite (r : Recorded Θ τ) (a : Action Θ τ) : Prop :=
  a = .loop .READY → r.pc = .running → r.queues.m_newQueue = []

/-- The queued tasks are different ones, from calls that have been made. -/
structure Distinct (s : State Θ τ) : Prop where
  nodup : (line s.queues ++ s.queues.m_newQueue).Nodup
  calls : ∀ e ∈ line s.queues ++ s.queues.m_newQueue, e.call < s.calls

/-- What a step does to the line, to the new tasks and to the record. -/
inductive Moved (r r' : Recorded Θ τ) (a : Action Θ τ) : Prop
  | stay (hline : line r'.queues = line r.queues)
      (hnew : r'.queues.m_newQueue = r.queues.m_newQueue) (hran : r'.ran = r.ran)
      (hqueued : r'.queued = r.queued) (hcalls : r'.calls = r.calls)
      (hpc : ∀ out, a = .loop out → r.pc ≠ .running)
  | takeOver (hline : line r'.queues = line r.queues ++ r.queues.m_newQueue)
      (hnew : r'.queues.m_newQueue = []) (hran : r'.ran = r.ran)
      (hqueued : r'.queued = r.queued) (hcalls : r'.calls = r.calls)
      (hpc : r.pc = .afterIdle ∨ ∃ flag, r.pc = .concatenate flag)
  | add {t : τ} (hline : line r'.queues = line r.queues)
      (hnew : r'.queues.m_newQueue = r.queues.m_newQueue ++ [⟨t, r.calls⟩]) (hran : r'.ran = r.ran)
      (hqueued : r'.queued = r.queued ++ [⟨t, r.calls⟩]) (hcalls : r'.calls = r.calls + 1)
      (hpc : ∀ out, a = .loop out → r.pc ≠ .running)
  | run {e : Entry τ} {rest : List (Entry τ)} {out : TaskState} (ha : a = .loop out)
      (hpc : r.pc = .running) (hcur : line r.queues = e :: rest)
      (hline : line r'.queues = rest ++ (if out = .READY then [e] else []))
      (hnew : r'.queues.m_newQueue = r.queues.m_newQueue) (hran : r'.ran = r.ran ++ [e])
      (hqueued : r'.queued = r.queued ++ (if out = .READY then [e] else []))
      (hcalls : r'.calls = r.calls)

/-- **Step.** What a step does to the line, to the new tasks and to the record. -/
theorem step_moved {r r' : Recorded Θ τ} {a : Action Θ τ} (hc : Current r.toState)
    (hs : recordedStep r a = some r') : Moved r r' a := by
  simp only [recordedStep, Option.map_eq_some_iff] at hs
  obtain ⟨s, hs, rfl⟩ := hs
  cases a with
  | enqueue θ t =>
    simp only [step] at hs
    split at hs <;> cases hs
    exact .add rfl rfl (List.append_nil _) rfl rfl (by simp)
  | loop out =>
    by_cases hidle : ∃ i, r.pc = .idle i
    · obtain ⟨i, hpc⟩ := hidle
      simp only [step, loopStep, hpc, Option.map_eq_some_iff] at hs
      obtain ⟨q, -, rfl⟩ := hs
      refine .stay rfl rfl ?_ ?_ rfl fun _ _ => by simp [hpc]
      · simp [runs, hpc]
      · cases out <;> simp [queues, hpc]
    · rw [step, loopStep_eq out (fun i hpc => hidle ⟨i, hpc⟩), Option.map_eq_some_iff] at hs
      obtain ⟨⟨pc', q'⟩, hr, rfl⟩ := hs
      rcases runStep_line hc.fetching hr with ⟨hpc, t, rest, hcur, hline, hline', hnew⟩ |
        ⟨hpc, hline, hnew⟩ | ⟨hpc, hline, hnew⟩
      · refine .run rfl hpc hline hline' hnew ?_ ?_ rfl
        · simp [runs, hpc, hcur]
        · cases out <;> simp [queues, hpc, hcur]
      · have hne : r.pc ≠ .running := by rcases hpc with hpc | ⟨_, hpc⟩ <;> simp [hpc]
        refine .takeOver hline hnew ?_ ?_ rfl hpc
        · simp [runs, hne]
        · cases out <;> simp [queues, hne]
      · refine .stay hline hnew ?_ ?_ rfl fun _ _ => hpc
        · simp [runs, hpc]
        · cases out <;> simp [queues, hpc]
  | tickle θ =>
    simp only [step] at hs
    split at hs <;> cases hs <;>
      exact .stay rfl rfl (List.append_nil _) (List.append_nil _) rfl (by simp)
  | stop θ =>
    simp only [step] at hs
    split at hs
    · split at hs <;> cases hs <;>
        exact .stay rfl rfl (List.append_nil _) (List.append_nil _) rfl (by simp)
    · cases hs
  | stopFlag θ | spurious =>
    simp only [step] at hs
    split at hs <;> cases hs
    exact .stay rfl rfl (List.append_nil _) (List.append_nil _) rfl (by simp)
  | start =>
    simp only [step, Option.ite_none_right_eq_some, Option.some.injEq] at hs
    obtain ⟨-, rfl⟩ := hs
    exact .stay rfl rfl (List.append_nil _) (List.append_nil _) rfl (by simp)

variable {r r' : Recorded Θ τ} {a : Action Θ τ}

omit [DecidableEq Θ] in
/-- Every step keeps the queued tasks different ones. -/
theorem Distinct.moved (h : Distinct r.toState) (hm : Moved r r' a) : Distinct r'.toState := by
  obtain ⟨hnd, hlt⟩ := h
  cases hm with
  | stay hline hnew _ _ hcalls =>
    refine ⟨?_, ?_⟩ <;> rw [hline, hnew]
    · exact hnd
    · exact hcalls ▸ hlt
  | takeOver hline hnew _ _ hcalls =>
    refine ⟨?_, ?_⟩ <;> rw [hline, hnew, List.append_nil]
    · exact hnd
    · exact hcalls ▸ hlt
  | @add t hline hnew _ _ hcalls =>
    have hout : (⟨t, r.calls⟩ : Entry τ) ∉ line r.queues ++ r.queues.m_newQueue := fun hm =>
      Nat.lt_irrefl _ (hlt _ hm)
    refine ⟨?_, ?_⟩ <;> rw [hline, hnew, ← List.append_assoc]
    · exact hnd.append (List.nodup_singleton _) (by simpa using hout)
    · intro e he
      rw [hcalls]
      rcases List.mem_append.mp he with he | he
      · exact Nat.lt_succ_of_lt (hlt e he)
      · rw [List.mem_singleton.mp he]
        exact Nat.lt_succ_self _
  | @run e rest out _ _ hcur hline hnew _ _ hcalls =>
    rw [hcur] at hnd hlt
    by_cases hout : out = .READY
    · -- the task goes to the end of the line
      have hperm : (line r'.queues ++ r'.queues.m_newQueue).Perm
          (e :: rest ++ r.queues.m_newQueue) := by
        rw [hline, hnew, if_pos hout]
        exact (List.perm_append_singleton e rest).append_right _
      exact ⟨hperm.nodup_iff.mpr hnd, fun x hx => hcalls ▸ hlt x (hperm.mem_iff.mp hx)⟩
    · have hsub : (line r'.queues ++ r'.queues.m_newQueue).Sublist
          (e :: rest ++ r.queues.m_newQueue) := by
        rw [hline, hnew, if_neg hout, List.append_nil]
        exact List.sublist_cons_self _ _
      exact ⟨hnd.sublist hsub, fun x hx => hcalls ▸ hlt x (hsub.subset hx)⟩

/-- The invariants of a recorded processor. -/
structure Kept (r : Recorded Θ τ) : Prop where
  inv : Inv r.toState
  current : Current r.toState
  distinct : Distinct r.toState

omit [DecidableEq Θ] in
theorem kept_initial : Kept (⟨initial, [], []⟩ : Recorded Θ τ) where
  inv := inv_initial
  current := ⟨fun _ => rfl, fun _ hc => absurd rfl hc, fun _ => .inl rfl⟩
  distinct := ⟨List.nodup_nil, fun _ he => absurd he List.not_mem_nil⟩

/-- **Step.** Every step keeps the invariants. -/
theorem Kept.step (h : Kept r) (hs : recordedStep r a = some r') : Kept r' := by
  have hm := step_moved h.current hs
  obtain ⟨s, hs', rfl⟩ := Option.map_eq_some_iff.mp hs
  exact ⟨inv_step h.inv hs', h.current.step h.inv hs', h.distinct.moved hm⟩

/-- **Run.** The invariants hold of every reachable state. -/
theorem reachable_recorded (h : (recorded Θ τ).Reachable r) : Kept r :=
  h.invariant (by rintro _ rfl; exact kept_initial) fun _ _ _ hk _ hs => hk.step hs

/-! ### The order -/

omit [DecidableEq Θ] in
/-- A step runs who is first in line, or lets the line grow at its end. -/
theorem Moved.line (hm : Moved r r' a) : ∃ d, r'.ran = r.ran ++ d ∧
    Processor.line r.queues <+: d ++ Processor.line r'.queues := by
  cases hm with
  | stay hline _ hran | add hline _ hran =>
    exact ⟨[], by rw [hran, List.append_nil], by rw [hline]; exact List.prefix_rfl⟩
  | takeOver hline _ hran =>
    exact ⟨[], by rw [hran, List.append_nil], by rw [hline]; exact List.prefix_append _ _⟩
  | @run e rest out _ _ hcur hline _ hran =>
    refine ⟨[e], hran, ?_⟩
    rw [hcur, hline]
    exact List.prefix_append (e :: rest) _

/-- **Who is in line is next.** From any reachable state on, the tasks that are in line are run
    before all others and in their order: the one behind `k` others is the task that is run after
    these `k`. -/
theorem line_first {as : List (Action Θ τ)} (h : (recorded Θ τ).Reachable r)
    (hr : (recorded Θ τ).exec r as = some r') : ∃ d, r'.ran = r.ran ++ d ∧
      line r.queues <+: d ++ line r'.queues := by
  induction as generalizing r with
  | nil => cases hr; exact ⟨[], (List.append_nil _).symm, List.prefix_rfl⟩
  | cons a as ih =>
    obtain ⟨t, hs, ht⟩ := Option.bind_eq_some_iff.mp hr
    obtain ⟨d, hd, hline⟩ := (step_moved (reachable_recorded h).current hs).line
    obtain ⟨d', hd', hline'⟩ := ih (.step h trivial hs) ht
    refine ⟨d ++ d', by rw [hd', hd, List.append_assoc], hline.trans ?_⟩
    rw [List.append_assoc]
    exact List.prefix_append_right_inj d |>.mpr hline'

/-- Two threads queue a task each, and the processor thread runs the first one. -/
def twoTasksTrace : List (Action Bool Nat) :=
  [.start, .enqueue false 7, .enqueue true 8] ++ List.replicate 6 (.loop .TERM)

/-- The state in which the first of the two tasks is run. -/
def twoTasks : Recorded Bool Nat :=
  ((recorded Bool Nat).exec ⟨initial, [], []⟩ twoTasksTrace).getD ⟨initial, [], []⟩

theorem exec_twoTasks :
    (recorded Bool Nat).exec ⟨initial, [], []⟩ twoTasksTrace = some twoTasks := rfl

/-- The first task yields after a third one has been queued. -/
def yieldingTrace : List (Action Bool Nat) := [.tickle false, .enqueue false 9, .loop .READY]

/-- The state in which the third task has been overtaken. -/
def yielding : Recorded Bool Nat := ((recorded Bool Nat).exec twoTasks yieldingTrace).getD twoTasks

theorem exec_yielding : (recorded Bool Nat).exec twoTasks yieldingTrace = some yielding := rfl

/-- The second task is run right after the first one. -/
theorem line_first_twoTasks : line twoTasks.queues = [⟨7, 0⟩, ⟨8, 1⟩] ∧ ∃ d,
    yielding.ran = twoTasks.ran ++ d ∧ line twoTasks.queues <+: d ++ line yielding.queues :=
  ⟨rfl, line_first (LTS.reachable_of_exec rfl exec_twoTasks) exec_yielding⟩

/-- A task that has been run, or is in line, out of its order. -/
def Overtaken (r : Recorded Θ τ) : Prop :=
  ∃ (n : Nat) (x y : Entry τ), (r.ran ++ line r.queues)[n]? = some x ∧ r.queued[n]? = some y ∧ x ≠ y

omit [DecidableEq Θ] in
/-- Who has been overtaken has not been run in order. -/
theorem Overtaken.not_inOrder (h : Overtaken r) : ¬ InOrder r := by
  obtain ⟨n, x, y, hx, hy, hne⟩ := h
  intro ho
  rw [InOrder] at ho
  rw [← ho, List.getElem?_append_left (List.getElem?_eq_some_iff.mp hx).1, hx] at hy
  exact hne (Option.some.inj hy)

omit [DecidableEq Θ] in
/-- Who has been overtaken stays so. -/
theorem Overtaken.moved (h : Overtaken r) (hm : Moved r r' a) : Overtaken r' := by
  obtain ⟨n, x, y, hx, hy, hne⟩ := h
  have hran : r.ran ++ line r.queues <+: r'.ran ++ line r'.queues := by
    obtain ⟨d, hd, hline⟩ := hm.line
    rw [hd, List.append_assoc]
    exact List.prefix_append_right_inj _ |>.mpr hline
  have hqueued : r.queued <+: r'.queued := by
    cases hm with
    | stay _ _ _ hq | takeOver _ _ _ hq => exact hq ▸ List.prefix_rfl
    | add _ _ _ hq | run _ _ _ _ _ _ hq => exact hq ▸ List.prefix_append _ _
  have hget : ∀ {l l' : List (Entry τ)} {z : Entry τ}, l <+: l' → l[n]? = some z →
      l'[n]? = some z := by
    rintro l _ z ⟨d, rfl⟩ hz
    rw [List.getElem?_append_left (List.getElem?_eq_some_iff.mp hz).1, hz]
  exact ⟨n, x, y, hget hran hx, hget hqueued hy, hne⟩

omit [DecidableEq Θ] in
/-- **Step.** A step at which no task yields to waiting new tasks keeps the order. -/
theorem InOrder.moved (h : InOrder r) (hm : Moved r r' a) (hp : Polite r a) : InOrder r' := by
  unfold InOrder at h ⊢
  cases hm with
  | stay hline hnew hran hqueued => rw [hran, hline, hnew, hqueued, h]
  | takeOver hline hnew hran hqueued =>
    rw [hran, hline, hnew, hqueued, List.append_nil, ← List.append_assoc, h]
  | add hline hnew hran hqueued => rw [hran, hline, hnew, hqueued, ← List.append_assoc, h]
  | @run e rest out ha hpc hcur hline hnew hran hqueued =>
    rw [hcur] at h
    by_cases hout : out = .READY
    · have hempty := hp (hout ▸ ha) hpc
      rw [hempty, List.append_nil] at h
      rw [hran, hline, hnew, hqueued, hempty, if_pos hout, ← h]
      simp
    · rw [hran, hline, hnew, hqueued, if_neg hout, ← h]
      simp

omit [DecidableEq Θ] in
/-- A task that yields to waiting new tasks overtakes the first of them. -/
theorem Overtaken.of_not_polite (h : InOrder r) (hd : Distinct r.toState) (hm : Moved r r' a)
    (hp : ¬ Polite r a) : Overtaken r' := by
  simp only [Polite, not_forall] at hp
  obtain ⟨rfl, hpc, hnew⟩ := hp
  obtain ⟨x, xs, hx⟩ := List.exists_cons_of_ne_nil hnew
  cases hm with
  | @run e rest out ha _ hcur hline _ hran hqueued =>
    cases ha
    rw [if_pos rfl] at hline hqueued
    have hnd := hd.nodup
    rw [hcur, hx] at hnd
    rw [InOrder, hcur, hx] at h
    refine ⟨(r.ran ++ e :: rest).length, e, x, ?_, ?_, ?_⟩
    · rw [hran, hline]
      simp
    · rw [hqueued, ← h]
      simp
    · rintro rfl
      exact (List.nodup_append.mp hnd).2.2 e (.head _) e (.head _) rfl
  | stay _ _ _ _ _ hne | add _ _ _ _ _ hne => exact absurd hpc (hne _ rfl)
  | takeOver _ _ _ _ _ hne => rcases hne with hne | ⟨_, hne⟩ <;> cases hpc.symm.trans hne

/-- **First come, first served — when.** In every run from the start, tasks have been run, and
    will be, in the order in which they have been queued if and only if no step of the run lets a
    task yield while new tasks wait: the task that yields overtakes them, as `getNextTask` looks
    at `m_newQueue` only when `m_runableQueue` is empty. -/
theorem inOrder_iff {as : List (Action Θ τ)}
    (hr : (recorded Θ τ).exec ⟨initial, [], []⟩ as = some r) :
    InOrder r ↔ (recorded Θ τ).Guarded Polite ⟨initial, [], []⟩ as := by
  refine LTS.safe_iff_guarded (I := fun r => InOrder r ∧ Kept r)
    (B := fun r => Overtaken r ∧ Kept r) (fun _ h => h.1) (fun _ h => h.1.not_inOrder)
    ?_ ?_ ?_ ⟨rfl, kept_initial⟩ hr
  · rintro r a r' ⟨ho, hk⟩ hp hs
    exact ⟨ho.moved (step_moved hk.current hs) hp, hk.step hs⟩
  · rintro r a r' ⟨ho, hk⟩ hp hs
    exact ⟨.of_not_polite ho hk.distinct (step_moved hk.current hs) hp, hk.step hs⟩
  · rintro r a r' ⟨ho, hk⟩ hs
    exact ⟨ho.moved (step_moved hk.current hs), hk.step hs⟩

/-- The first task yields while the third one waits, and is in line before it. -/
theorem inOrder_iff_yielding : ¬ InOrder yielding ∧ (InOrder yielding ↔
    (recorded Bool Nat).Guarded Polite ⟨initial, [], []⟩ (twoTasksTrace ++ yieldingTrace)) :=
  ⟨by unfold InOrder; decide, inOrder_iff (by rfl)⟩

/-! ### Tasks that go on yielding -/

/-- The condition on a step: the task that is run yields. -/
def Yields (r : Recorded Θ τ) (a : Action Θ τ) : Prop :=
  ∀ out, a = .loop out → r.pc = .running → out = .READY

/-- The thread is within a round that goes on as long as there is a task in line. -/
inductive Busy (s : State Θ τ) : Prop
  | running (hpc : s.pc = .running)
  | current (hcur : s.queues.m_curTask ≠ none)
      (hpc : s.pc = .inner ∨ s.pc = .outer ∨ s.pc = .exited)
  | dequeue (hpc : s.pc = .dequeue false) (hline : s.queues.m_runableQueue ≠ [])

omit [DecidableEq Θ] in
/-- Whether a round goes on is seen at the program point and the line. -/
theorem Busy.congr (h : Busy s) (hpc : s'.pc = s.pc)
    (hcur : s'.queues.m_curTask = s.queues.m_curTask)
    (hline : s'.queues.m_runableQueue = s.queues.m_runableQueue) : Busy s' := by
  cases h with
  | running h => exact .running (hpc.trans h)
  | current hc h => exact .current (hcur ▸ hc) (hpc ▸ h)
  | dequeue h hl => exact .dequeue (hpc.trans h) (hline ▸ hl)

omit [DecidableEq Θ] in
/-- A busy thread does not sleep. -/
theorem Busy.not_idle (h : Busy s) (i : IdlePc) : s.pc ≠ .idle i := by
  intro hi
  cases h with
  | running h => cases h.symm.trans hi
  | current _ h => rcases h with h | h | h <;> cases h.symm.trans hi
  | dequeue h => cases h.symm.trans hi

omit [DecidableEq Θ] in
/-- A busy thread does not look at the new tasks. -/
theorem Busy.not_over (h : Busy s) : ¬ (s.pc = .afterIdle ∨ ∃ flag, s.pc = .concatenate flag) := by
  intro ho
  cases h with
  | running h => rcases ho with ho | ⟨_, ho⟩ <;> cases h.symm.trans ho
  | current _ h => rcases h with h | h | h <;> rcases ho with ho | ⟨_, ho⟩ <;> cases h.symm.trans ho
  | dequeue h => rcases ho with ho | ⟨_, ho⟩ <;> cases h.symm.trans ho

omit [DecidableEq Θ] in
/-- The loop goes on with its round as long as the tasks yield. -/
theorem Busy.loop {out : TaskState} (h : Busy s) (hc : Current s)
    (hy : s.pc = .running → out = .READY) (hs : loopStep out s = some s') : Busy s' := by
  rw [loopStep_eq out h.not_idle, Option.map_eq_some_iff] at hs
  obtain ⟨⟨pc', q'⟩, hr, rfl⟩ := hs
  cases h with
  | running hpc =>
    rw [hpc, hy hpc] at hr
    simp only [runStep, Option.map_eq_some_iff, Prod.mk.injEq] at hr
    obtain ⟨t, -, rfl, rfl⟩ := hr
    exact .dequeue rfl (by simp [Queues.swapOut])
  | current hcur hpc =>
    rcases hpc with hpc | hpc | hpc <;> rw [hpc] at hr
    · simp only [runStep, Option.some.injEq, Prod.mk.injEq] at hr
      obtain ⟨rfl, rfl⟩ := hr
      by_cases hs : (s.queues.m_curTask.isSome && !!s.m_started) = true
      · exact .running (if_pos hs)
      · exact .current hcur (.inr (.inl (if_neg hs)))
    · simp only [runStep, Option.some.injEq, Prod.mk.injEq] at hr
      obtain ⟨rfl, rfl⟩ := hr
      exact .current hcur (.inr (.inr (by simp [(hc.outer hpc hcur).1])))
    · cases hr
  | dequeue hpc hline =>
    obtain ⟨t, rest, hrun⟩ := List.exists_cons_of_ne_nil hline
    simp only [hpc, runStep, hrun, Option.some.injEq, Prod.mk.injEq] at hr
    obtain ⟨rfl, rfl⟩ := hr
    exact .current (Option.some_ne_none t) (.inl rfl)

/-- **Step.** A round goes on as long as the tasks yield, whatever the other threads do. -/
theorem Busy.step (h : Busy s) (hc : Current s)
    (hy : ∀ out, a = .loop out → s.pc = .running → out = .READY)
    (hs : Processor.step s a = some s') : Busy s' := by
  cases a with
  | loop out => exact h.loop hc (hy out rfl) hs
  | tickle θ =>
    have hpc : s.tickled.pc = s.pc := by
      have hn : notifyOne s.pc = s.pc := by
        unfold notifyOne
        split
        · next hi => exact absurd hi (h.not_idle _)
        · rfl
      rcases tickle_cases s.pc s.toFlags with ⟨-, ht⟩ | ⟨-, ht⟩
      · exact (congrArg Prod.fst ht).trans hn
      · exact congrArg Prod.fst ht
    simp only [Processor.step] at hs
    split at hs <;> cases hs <;> exact h.congr hpc rfl rfl
  | spurious =>
    simp only [Processor.step] at hs
    split at hs
    · next hi => exact absurd hi (h.not_idle _)
    · cases hs
  | stop θ =>
    simp only [Processor.step] at hs
    split at hs
    · split at hs <;> cases hs <;> exact h.congr rfl rfl rfl
    · cases hs
  | enqueue θ t | stopFlag θ =>
    simp only [Processor.step] at hs
    split at hs <;> cases hs
    exact h.congr rfl rfl rfl
  | start =>
    simp only [Processor.step, Option.ite_none_right_eq_some, Option.some.injEq] at hs
    obtain ⟨-, rfl⟩ := hs
    exact h.congr rfl rfl rfl

omit [DecidableEq Θ] in
/-- A busy thread whose tasks yield runs who is first in line and lets it go to the end. -/
theorem Busy.moved (h : Busy r.toState) (hm : Moved r r' a) (hy : Yields r a) :
    r.queues.m_newQueue <+: r'.queues.m_newQueue ∧ ∃ d, r'.ran = r.ran ++ d ∧
      d ++ line r'.queues = line r.queues ++ d := by
  cases hm with
  | stay hline hnew hran =>
    exact ⟨hnew ▸ List.prefix_rfl, [], by rw [hran, List.append_nil], by
      rw [hline, List.append_nil, List.nil_append]⟩
  | takeOver _ _ _ _ _ hpc => exact absurd hpc h.not_over
  | add hline hnew hran =>
    exact ⟨hnew ▸ List.prefix_append _ _, [], by rw [hran, List.append_nil], by
      rw [hline, List.append_nil, List.nil_append]⟩
  | @run e rest out ha hpc hcur hline hnew hran =>
    refine ⟨hnew ▸ List.prefix_rfl, [e], hran, ?_⟩
    rw [hline, hcur, if_pos (hy out ha hpc)]
    rfl

/-- **New tasks starve.** From any reachable state in which a task is running on, as long as every
    task that is run yields, no new task is taken over: the new tasks stay where they are and in
    their order, and the tasks in line take turns, whatever the other threads do. -/
theorem yielding_starves {as : List (Action Θ τ)} (h : (recorded Θ τ).Reachable r)
    (hpc : r.pc = .running) (hy : (recorded Θ τ).Guarded Yields r as)
    (hr : (recorded Θ τ).exec r as = some r') :
    r.queues.m_newQueue <+: r'.queues.m_newQueue ∧ ∃ d, r'.ran = r.ran ++ d ∧
      d ++ line r'.queues = line r.queues ++ d := by
  have hb : Busy r.toState := .running hpc
  clear hpc
  induction as generalizing r with
  | nil => cases hr; exact ⟨List.prefix_rfl, [], (List.append_nil _).symm, (List.append_nil _).symm⟩
  | cons a as ih =>
    obtain ⟨t, hs, ht⟩ := Option.bind_eq_some_iff.mp hr
    have hc := (reachable_recorded h).current
    have hbt : Busy t.toState := by
      obtain ⟨s, hs', rfl⟩ := Option.map_eq_some_iff.mp hs
      exact hb.step hc hy.1 hs'
    obtain ⟨hnew, d, hd, hline⟩ := hb.moved (step_moved hc hs) hy.1
    obtain ⟨hnew', d', hd', hline'⟩ := ih (.step h trivial hs) (hy.2 t hs) ht hbt
    refine ⟨hnew.trans hnew', d ++ d', by rw [hd', hd, List.append_assoc], ?_⟩
    rw [List.append_assoc, hline', ← List.append_assoc, hline, List.append_assoc]

/-- The third task waits while the first two take turns. -/
theorem yielding_starves_twoTasks : yielding.queues.m_newQueue = [⟨9, 2⟩] ∧
    twoTasks.queues.m_newQueue <+: yielding.queues.m_newQueue ∧ ∃ d,
      yielding.ran = twoTasks.ran ++ d ∧ d ++ line yielding.queues = line twoTasks.queues ++ d := by
  refine ⟨rfl, yielding_starves (LTS.reachable_of_exec rfl exec_twoTasks) rfl ?_ exec_yielding⟩
  exact .cons (by simp [Yields]) rfl (.cons (by simp [Yields]) rfl
    (.cons (by rintro out ⟨⟩ -; rfl) rfl trivial))

end

end LimWebserver.Processor
