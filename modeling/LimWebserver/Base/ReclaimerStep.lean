import LimWebserver.Base.Reclaimer

namespace LimWebserver.Hazard

open LimWebserver.Lib

/-!
# Base — what a step of a `Reclaimer` does

* `Move` — the steps that only read shared memory: from which program point to which one, with what
  has been read on the way;
* `Effect` — all steps, the ones that write with what they write;
* `step_effect` — every step has such an effect.
-/

variable {Θ P F : Type*}

/-- The thread of a step. -/
def Action.thread : Action Θ P F → Θ
  | .call θ _ | .run θ _ | .visit θ _ => θ

/-- What a step calls, if it is a call. -/
def Action.called : Action Θ P F → Option (Call P F)
  | .call _ c => some c
  | _ => none

theorem Action.eq_call {a : Action Θ P F} {c : Call P F} (h : a.called = some c) :
    a = .call a.thread c := by
  cases a with
  | call θ c' => cases h; rfl
  | run | visit => cases h

section
variable [DecidableEq P]

/-- The steps that write nothing which other threads can see. -/
inductive Move (s : State Θ P F) (θ : Θ) : Pc P → Pc P → Prop
  | search {ptr : P} : Move s θ .idle (.searching ptr 0)
  | enter (hsize : kCoefficient * s.size ≤ (s.thread θ).store.reclaim_map_.length) :
      Move s θ .idle .entering
  | destroy : Move s θ .idle (.releasing 0)
  | full {ptr : P} {i : Nat} (hi : (s.thread θ).hp_list_[i]? = none) :
      Move s θ (.searching ptr i) (.acquiring ptr)
  | free {ptr : P} {i hp : Nat} (hi : (s.thread θ).hp_list_[i]? = some hp)
      (hptr : (s.heap hp).ptr = none) : Move s θ (.searching ptr i) (.storing ptr i)
  | taken {ptr ptr' : P} {i hp : Nat} (hi : (s.thread θ).hp_list_[i]? = some hp)
      (hptr : (s.heap hp).ptr = some ptr') : Move s θ (.searching ptr i) (.searching ptr (i + 1))
  | acquire {ptr : P} : Move s θ (.acquiring ptr) (.testing ptr s.head)
  | busy {ptr : P} {p : Nat} : Move s θ (.testing ptr p) (.following ptr p)
  | follow {ptr : P} {p q : Nat} (hq : s.next p = some q) :
      Move s θ (.following ptr p) (.testing ptr q)
  | load {ptr : P} {new_head : Nat} :
      Move s θ (.loading ptr new_head) (.linking ptr new_head s.head)
  | retry {ptr : P} {new_head old_head : Nat} :
      Move s θ (.swapping ptr new_head old_head) (.linking ptr new_head s.head)
  | scan : Move s θ .entering (.scanning s.head [])
  | unmarked {p : Nat} {set : List P} (hptr : (s.heap p).ptr = none) :
      Move s θ (.scanning p set) (.advancing p set)
  | marked {p : Nat} {set : List P} {ptr : P} (hptr : (s.heap p).ptr = some ptr) :
      Move s θ (.scanning p set) (.advancing p (set.insert ptr))
  | advance {p q : Nat} {set : List P} (hq : s.next p = some q) :
      Move s θ (.advancing p set) (.scanning q set)
  | sweep {p : Nat} {set : List P} (hq : s.next p = none) :
      Move s θ (.advancing p set) (.sweeping (s.thread θ).store.keys set)
  | keep {key : P} {todo set : List P} (hkey : key ∈ todo) (hset : key ∈ set) :
      Move s θ (.sweeping todo set) (.sweeping (todo.erase key) set)
  | swept {set : List P} : Move s θ (.sweeping [] set) .idle
  | released {i : Nat} (hi : (s.thread θ).hp_list_[i]? = none) :
      Move s θ (.releasing i) (.leaving (s.thread θ).store.keys)
  | check {key : P} {todo : List P} (hkey : key ∈ todo) :
      Move s θ (.leaving todo) (.asking key (todo.erase key))
  | left : Move s θ (.leaving []) .gone
  | ask {key : P} {todo : List P} : Move s θ (.asking key todo) (.comparing key todo s.head)
  | hazard {key : P} {todo : List P} {p : Nat} :
      Move s θ (.comparing key todo p) (.asking key todo)
  | other {key : P} {todo : List P} {p : Nat} (hptr : (s.heap p).ptr ≠ some key) :
      Move s θ (.comparing key todo p) (.stepping key todo p)
  | step {key : P} {todo : List P} {p q : Nat} (hq : s.next p = some q) :
      Move s θ (.stepping key todo p) (.comparing key todo q)

variable [DecidableEq Θ]

/-- What a step of a thread does that calls `u`, or nothing. -/
inductive Effect (s : State Θ P F) (θ : Θ) (u : Option (Call P F)) :
    State Θ P F → Prop
  | same (hpc : (s.thread θ).pc = .idle) : Effect s θ u s
  | null (hpc : (s.thread θ).pc = .idle) :
      Effect s θ u (s.setThread θ { s.thread θ with index := none })
  | move {pc : Pc P} (h : Move s θ (s.thread θ).pc pc) : Effect s θ u (s.goto θ pc)
  | unmark {i hp : Nat} (hu : u = some (.UnMarkHazard (some i))) (hpc : (s.thread θ).pc = .idle)
      (hi : (s.thread θ).hp_list_[i]? = some hp) : Effect s θ u (s.writePtr hp none)
  | later {ptr : P} {func : F} (hu : u = some (.ReclaimLater ptr func))
      (hpc : (s.thread θ).pc = .idle) :
      Effect s θ u { s.setThread θ { s.thread θ with
        store := (s.thread θ).store.ReclaimLater ptr func } with
          retired := (θ, ptr, func) :: s.retired }
  | store {ptr : P} {i hp : Nat} (hpc : (s.thread θ).pc = .storing ptr i)
      (hi : (s.thread θ).hp_list_[i]? = some hp) :
      Effect s θ u ((s.writePtr hp (some ptr)).setThread θ { s.thread θ with
        pc := .idle
        index := some i })
  | take {ptr : P} {p : Nat} (hpc : (s.thread θ).pc = .testing ptr p)
      (hflag : (s.heap p).flag = false) : Effect s θ u (acquired (s.writeFlag p true) θ ptr p)
  | allocate {ptr : P} {p : Nat} (hpc : (s.thread θ).pc = .following ptr p) :
      Effect s θ u (State.goto { s with
        heap := Function.update s.heap s.fresh ⟨true, none, none⟩
        fresh := s.fresh + 1 } θ (.counting ptr s.fresh))
  | count {ptr : P} {new_head : Nat} (hpc : (s.thread θ).pc = .counting ptr new_head) :
      Effect s θ u (State.goto { s with size := s.size + 1 } θ (.loading ptr new_head))
  | link {ptr : P} {new_head old_head : Nat}
      (hpc : (s.thread θ).pc = .linking ptr new_head old_head) :
      Effect s θ u ((s.writeNext new_head old_head).goto θ (.swapping ptr new_head old_head))
  | push {ptr : P} {new_head : Nat} (hpc : (s.thread θ).pc = .swapping ptr new_head s.head) :
      Effect s θ u (acquired { s with head := new_head } θ ptr new_head)
  | clear {i hp : Nat} (hpc : (s.thread θ).pc = .releasing i)
      (hi : (s.thread θ).hp_list_[i]? = some hp) (hptr : (s.heap hp).ptr = none) :
      Effect s θ u ((s.writeFlag hp false).goto θ (.releasing (i + 1)))
  | delete {push : Bool} {key : P} {pc : Pc P} {c : P × F} {store : ReclaimStore P F}
      (hpc : (∃ todo set, (s.thread θ).pc = .sweeping todo set ∧ key ∈ todo ∧ key ∉ set ∧
          pc = .sweeping (todo.erase key) set) ∨
        ∃ todo p, (s.thread θ).pc = .stepping key todo p ∧ s.next p = none ∧ pc = .leaving todo)
      (htake : (s.thread θ).store.take push key = some (c, store)) :
      Effect s θ u { s.setThread θ { s.thread θ with store := store, pc := pc } with
        deleted := (θ, c) :: s.deleted }

variable {s s' : State Θ P F} {θ : Θ} {u : Option (Call P F)}

theorem start_effect {c : Call P F} (hpc : (s.thread θ).pc = .idle)
    (h : start s θ c = some s') :
    Effect s θ (some c) s' := by
  cases c with
  | MarkHazard ptr =>
    cases ptr with
    | none => cases h; exact .null hpc
    | some ptr => cases h; exact .move (hpc ▸ .search)
  | UnMarkHazard index =>
    cases index with
    | none => cases h; exact .same hpc
    | some i =>
      simp only [start] at h
      split at h
      · next hi => cases h; exact .unmark rfl hpc hi
      · cases h
  | ReclaimLater ptr func => cases h; exact .later rfl hpc
  | ReclaimNoHazardPointer =>
    simp only [start] at h
    split at h
    · cases h; exact .same hpc
    · next hsize => cases h; exact .move (hpc ▸ .enter (Nat.le_of_not_lt hsize))
  | destroy => cases h; exact .move (hpc ▸ .destroy)

theorem delete_effect {push : Bool} {key : P} {pc : Pc P}
    (hpc : (∃ todo set, (s.thread θ).pc = .sweeping todo set ∧ key ∈ todo ∧ key ∉ set ∧
        pc = .sweeping (todo.erase key) set) ∨
      ∃ todo p, (s.thread θ).pc = .stepping key todo p ∧ s.next p = none ∧ pc = .leaving todo)
    (h : delete s θ push key pc = some s') : Effect s θ u s' := by
  unfold delete at h
  split at h
  · cases h
  · next htake => cases h; exact .delete hpc htake

theorem run_effect {strong : Bool} {pc : Pc P} (hpc : (s.thread θ).pc = pc)
    (h : run s θ strong pc = some s') : Effect s θ u s' := by
  cases pc with
  | idle | gone => cases h
  | searching ptr i =>
    simp only [run] at h
    split at h
    · next hi => cases h; exact .move (hpc ▸ .full hi)
    · next hi =>
      split at h
      · next hptr => cases h; exact .move (hpc ▸ .free hi hptr)
      · next hptr => cases h; exact .move (hpc ▸ .taken hi hptr)
  | storing ptr i =>
    simp only [run] at h
    split at h
    · cases h
    · next hi => cases h; exact .store hpc hi
  | acquiring ptr => cases h; exact .move (hpc ▸ .acquire)
  | testing ptr p =>
    simp only [run] at h
    split at h
    · cases h; exact .move (hpc ▸ .busy)
    · next hflag => cases h; exact .take hpc (by simpa using hflag)
  | following ptr p =>
    simp only [run] at h
    split at h
    · next hq => cases h; exact .move (hpc ▸ .follow hq)
    · cases h; exact .allocate hpc
  | counting ptr new_head => cases h; exact .count hpc
  | loading ptr new_head => cases h; exact .move (hpc ▸ .load)
  | linking ptr new_head old_head => cases h; exact .link hpc
  | swapping ptr new_head old_head =>
    simp only [run, Bool.and_eq_true, decide_eq_true_eq] at h
    split at h
    · next hs => cases h; exact .push (hs.2 ▸ hpc)
    · cases h; exact .move (hpc ▸ .retry)
  | entering => cases h; exact .move (hpc ▸ .scan)
  | scanning p set =>
    simp only [run] at h
    split at h
    · next hptr => cases h; exact .move (hpc ▸ .unmarked hptr)
    · next hptr => cases h; exact .move (hpc ▸ .marked hptr)
  | advancing p set =>
    simp only [run] at h
    split at h
    · next hq => cases h; exact .move (hpc ▸ .advance hq)
    · next hq => cases h; exact .move (hpc ▸ .sweep hq)
  | sweeping todo set =>
    simp only [run] at h
    split at h
    · next ht => cases h; exact .move (hpc ▸ ht ▸ .swept)
    · cases h
  | releasing i =>
    simp only [run] at h
    split at h
    · next hi => cases h; exact .move (hpc ▸ .released hi)
    · next hi =>
      split at h
      · next hptr => cases h; exact .clear hpc hi hptr
      · cases h
  | leaving todo =>
    simp only [run] at h
    split at h
    · next ht => cases h; exact .move (hpc ▸ ht ▸ .left)
    · cases h
  | asking key todo => cases h; exact .move (hpc ▸ .ask)
  | comparing key todo p =>
    simp only [run] at h
    split at h
    · cases h; exact .move (hpc ▸ .hazard)
    · next hptr => cases h; exact .move (hpc ▸ .other hptr)
  | stepping key todo p =>
    simp only [run] at h
    split at h
    · next hq => cases h; exact .move (hpc ▸ .step hq)
    · next hq => exact delete_effect (.inr ⟨todo, p, hpc, hq, rfl⟩) h

theorem visit_effect {key : P} {pc : Pc P} (hpc : (s.thread θ).pc = pc)
    (h : visit s θ key pc = some s') : Effect s θ u s' := by
  cases pc with
  | sweeping todo set =>
    simp only [visit] at h
    split at h
    · next hkey =>
      split at h
      · next hset => cases h; exact .move (hpc ▸ .keep hkey hset)
      · next hset => exact delete_effect (.inl ⟨todo, set, hpc, hkey, hset, rfl⟩) h
    · cases h
  | leaving todo =>
    simp only [visit] at h
    split at h
    · next hkey => cases h; exact .move (hpc ▸ .check hkey)
    · cases h
  | _ => cases h

/-- **What a step does.** -/
theorem step_effect {a : Action Θ P F} (h : step s a = some s') :
    Effect s a.thread a.called s' := by
  cases a with
  | call θ c =>
    simp only [step] at h
    split at h
    · next hpc => exact start_effect hpc h
    · cases h
  | run θ strong => exact run_effect rfl h
  | visit θ key => exact visit_effect rfl h

/-! ### Frames -/

variable {θ' : Θ}

/-- A step changes the data of its own thread only. -/
theorem Effect.thread_of_ne {u : Option (Call P F)} (he : Effect s θ u s') (hne : θ' ≠ θ) :
    s'.thread θ' = s.thread θ' := by
  cases he <;> first | rfl | exact State.setThread_of_ne _ _ hne

/-- A step of another thread leaves a thread where it is. -/
theorem pc_of_ne {a : Action Θ P F} (hs : step s a = some s') (hne : a.thread ≠ θ) :
    s'.thread θ = s.thread θ := (step_effect hs).thread_of_ne hne.symm

/-- Only a call moves a thread that is idle. -/
theorem not_idle {a : Action Θ P F} (hs : step s a = some s') (hθ : a.thread = θ)
    (hcall : ∀ c, a ≠ .call θ c) : (s.thread θ).pc ≠ .idle := by
  subst hθ
  intro hpc
  cases a with
  | call θ c => exact hcall c rfl
  | run θ strong | visit θ key =>
    simp only [Action.thread] at hpc
    simp [step, hpc, run, visit] at hs

end

end LimWebserver.Hazard
