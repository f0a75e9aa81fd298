import LimWebserver.Base.ReclaimPool
import LimWebserver.Lib.Chain
import LimWebserver.Lib.Transition

namespace LimWebserver.Hazard

open LimWebserver.Lib

/-!
# Base — `Reclaimer`, hazard pointers

Threads share a list of hazard pointers that only grows.  A thread marks a pointer by storing it in
a hazard pointer that it owns; who wants to delete a pointer hands it to its `Reclaimer`, which
deletes it once a pass over the list has not found it.  Every atomic operation on `flag`, `ptr`,
`next`, `head` and `size` is one step, in one global order; what a thread does with its own data
goes with the step before it.

* `InternalHazardPointer`, `Reclaimer`, `State` — the shared list, the data of a thread with its
  program point, the system;
* `start` — a thread calls `MarkHazard`, `UnMarkHazard`, `ReclaimLater`, `ReclaimNoHazardPointer` or
  its destructor;
* `run`, `visit` — the steps of the call; a pass over `reclaim_map_` takes the keys in any order.
-/

/-- `kCoefficient`, in integer arithmetic. -/
def kCoefficient : Nat := 4 + 1 / 4

/-- An `InternalHazardPointer`. -/
structure InternalHazardPointer (P : Type*) where
  flag : Bool
  ptr : Option P
  next : Option Nat
  deriving DecidableEq, Repr

/-- Program points of a thread inside `Reclaimer`. -/
inductive Pc (P : Type*)
  | idle
  /-- `MarkHazard`: `hp->ptr.load` of `hp_list_[i]` -/
  | searching (ptr : P) (i : Nat)
  /-- `MarkHazard`: `hp_list_[i]->ptr.store(ptr)` -/
  | storing (ptr : P) (i : Nat)
  /-- `TryAcquireHazardPointer`: `head.load` -/
  | acquiring (ptr : P)
  /-- `TryAcquireHazardPointer`: `p->flag.test_and_set` -/
  | testing (ptr : P) (p : Nat)
  /-- `TryAcquireHazardPointer`: `p->next.load` -/
  | following (ptr : P) (p : Nat)
  /-- `TryAcquireHazardPointer`: `size.fetch_add` -/
  | counting (ptr : P) (new_head : Nat)
  /-- `TryAcquireHazardPointer`: `old_head = head.load` -/
  | loading (ptr : P) (new_head : Nat)
  /-- `TryAcquireHazardPointer`: `new_head->next = old_head` -/
  | linking (ptr : P) (new_head old_head : Nat)
  /-- `TryAcquireHazardPointer`: `head.compare_exchange_weak(old_head, new_head)` -/
  | swapping (ptr : P) (new_head old_head : Nat)
  /-- `ReclaimNoHazardPointer`: `head.load` -/
  | entering
  /-- `ReclaimNoHazardPointer`: `p->ptr.load` -/
  | scanning (p : Nat) (not_allow_delete_set : List P)
  /-- `ReclaimNoHazardPointer`: `p->next.load` -/
  | advancing (p : Nat) (not_allow_delete_set : List P)
  /-- `ReclaimNoHazardPointer`: the loop over `reclaim_map_`, with the keys still to come -/
  | sweeping (todo : List P) (not_allow_delete_set : List P)
  /-- `~Reclaimer`: `hp_list_[i]->flag.clear` -/
  | releasing (i : Nat)
  /-- `~Reclaimer`: the loop over `reclaim_map_`, with the keys still to come -/
  | leaving (todo : List P)
  /-- `Hazard(key)` in `~Reclaimer`: `head.load` -/
  | asking (key : P) (todo : List P)
  /-- `Hazard(key)` in `~Reclaimer`: `p->ptr.load() == ptr` -/
  | comparing (key : P) (todo : List P) (p : Nat)
  /-- `Hazard(key)` in `~Reclaimer`: `p->next.load` -/
  | stepping (key : P) (todo : List P) (p : Nat)
  /-- the thread has exited -/
  | gone
  deriving DecidableEq, Repr

/-- The `Reclaimer` of a thread. -/
structure Reclaimer (P F : Type*) where
  hp_list_ : List Nat
  /-- `reclaim_map_` and `reclaim_pool_` -/
  store : ReclaimStore P F
  pc : Pc P
  /-- what the last `MarkHazard` has returned, `none` for `HP_INDEX_NULL` -/
  index : Option Nat

/-- The hazard pointers in memory, `HazardPointerList` and the threads. -/
structure State (Θ P F : Type*) where
  heap : Nat → InternalHazardPointer P
  /-- the next address of `new` -/
  fresh : Nat
  head : Nat
  size : Nat
  thread : Θ → Reclaimer P F
  /-- the calls of `ReclaimLater`, each with its thread, the latest first -/
  retired : List (Θ × P × F)
  /-- the calls of `delete_func` -/
  deleted : List (Θ × P × F)

/-- What a thread calls. -/
inductive Call (P F : Type*)
  | MarkHazard (ptr : Option P)
  | UnMarkHazard (index : Option Nat)
  | ReclaimLater (ptr : P) (func : F)
  | ReclaimNoHazardPointer
  | destroy
  deriving DecidableEq, Repr

/-- The steps of the threads. -/
inductive Action (Θ P F : Type*)
  /-- a thread calls a function -/
  | call (θ : Θ) (c : Call P F)
  /-- the next step of this call; a compare-exchange fails spuriously unless `strong` -/
  | run (θ : Θ) (strong : Bool)
  /-- the loop over `reclaim_map_` comes to a key -/
  | visit (θ : Θ) (key : P)
  deriving DecidableEq, Repr

variable {Θ P F : Type*}

namespace State

/-- Read `p->next`. -/
def next (s : State Θ P F) (p : Nat) : Option Nat := (s.heap p).next

section
variable [DecidableEq Θ]

/-- Change the data of one thread. -/
def setThread (s : State Θ P F) (θ : Θ) (t : Reclaimer P F) : State Θ P F :=
  { s with thread := Function.update s.thread θ t }

@[simp] theorem setThread_self (s : State Θ P F) (θ : Θ) (t : Reclaimer P F) :
    (s.setThread θ t).thread θ = t := Function.update_self _ _ _

theorem setThread_of_ne (s : State Θ P F) {θ θ' : Θ} (t : Reclaimer P F) (h : θ' ≠ θ) :
    (s.setThread θ t).thread θ' = s.thread θ' := Function.update_of_ne h _ _

/-- Move one thread to a program point. -/
def goto (s : State Θ P F) (θ : Θ) (pc : Pc P) : State Θ P F :=
  s.setThread θ { s.thread θ with pc := pc }

end

/-- Write `p->ptr`. -/
def writePtr (s : State Θ P F) (p : Nat) (ptr : Option P) : State Θ P F :=
  { s with heap := Function.update s.heap p { s.heap p with ptr := ptr } }

/-- Write `p->flag`. -/
def writeFlag (s : State Θ P F) (p : Nat) (flag : Bool) : State Θ P F :=
  { s with heap := Function.update s.heap p { s.heap p with flag := flag } }

/-- Write `p->next`. -/
def writeNext (s : State Θ P F) (p q : Nat) : State Θ P F :=
  { s with heap := Function.update s.heap p { s.heap p with next := some q } }

/-- `GetHazardPtr` in a thread. -/
def GetHazardPtr (s : State Θ P F) (θ : Θ) (index : Option Nat) : Option P :=
  (index.bind fun i => (s.thread θ).hp_list_[i]?).bind fun hp => (s.heap hp).ptr

end State

section
variable [DecidableEq Θ] [DecidableEq P]

/-- A thread calls a function; what needs no step of its own is done at once. -/
def start (s : State Θ P F) (θ : Θ) : Call P F → Option (State Θ P F)
  | .MarkHazard none => some (s.setThread θ { s.thread θ with index := none })
  | .MarkHazard (some ptr) => some (s.goto θ (.searching ptr 0))
  | .UnMarkHazard none => some s
  | .UnMarkHazard (some i) =>
    -- `assert(index >= 0 && index < hp_list_.size())`
    match (s.thread θ).hp_list_[i]? with
    | some hp => some (s.writePtr hp none)
    | none => none
  | .ReclaimLater ptr func => some { s.setThread θ { s.thread θ with
      store := (s.thread θ).store.ReclaimLater ptr func } with
        retired := (θ, ptr, func) :: s.retired }
  | .ReclaimNoHazardPointer =>
    if (s.thread θ).store.reclaim_map_.length < kCoefficient * s.size then some s
    else some (s.goto θ .entering)
  | .destroy => some (s.goto θ (.releasing 0))

/-- `node->delete_func(node->ptr)` for the entry of a key, which is erased. -/
def delete (s : State Θ P F) (θ : Θ) (push : Bool) (key : P) (pc : Pc P) : Option (State Θ P F) :=
  match (s.thread θ).store.take push key with
  | none => none
  | some (c, store) => some { s.setThread θ { s.thread θ with store := store, pc := pc } with
      deleted := (θ, c) :: s.deleted }

/-- `hp_list_.push_back(hp)`, after which `MarkHazard` stores at the last index. -/
def acquired (s : State Θ P F) (θ : Θ) (ptr : P) (hp : Nat) : State Θ P F :=
  s.setThread θ { s.thread θ with
    hp_list_ := (s.thread θ).hp_list_ ++ [hp]
    pc := .storing ptr (s.thread θ).hp_list_.length }

/-- The next step of a call. -/
def run (s : State Θ P F) (θ : Θ) (strong : Bool) : Pc P → Option (State Θ P F)
  | .idle => none
  | .searching ptr i =>
    match (s.thread θ).hp_list_[i]? with
    | none => some (s.goto θ (.acquiring ptr))
    | some hp =>
      match (s.heap hp).ptr with
      | none => some (s.goto θ (.storing ptr i))
      | some _ => some (s.goto θ (.searching ptr (i + 1)))
  | .storing ptr i =>
    match (s.thread θ).hp_list_[i]? with
    | none => none
    | some hp => some ((s.writePtr hp (some ptr)).setThread θ { s.thread θ with
        pc := .idle
        index := some i })
  | .acquiring ptr => some (s.goto θ (.testing ptr s.head))
  | .testing ptr p =>
    if (s.heap p).flag then some (s.goto θ (.following ptr p))
    else some (acquired (s.writeFlag p true) θ ptr p)
  | .following ptr p =>
    match s.next p with
    | some q => some (s.goto θ (.testing ptr q))
    -- `new InternalHazardPointer()` and `new_head->flag.test_and_set()`
    | none => some (State.goto { s with
        heap := Function.update s.heap s.fresh ⟨true, none, none⟩
        fresh := s.fresh + 1 } θ (.counting ptr s.fresh))
  | .counting ptr new_head =>
    some (State.goto { s with size := s.size + 1 } θ (.loading ptr new_head))
  | .loading ptr new_head => some (s.goto θ (.linking ptr new_head s.head))
  | .linking ptr new_head old_head =>
    some ((s.writeNext new_head old_head).goto θ (.swapping ptr new_head old_head))
  | .swapping ptr new_head old_head =>
    if strong && s.head = old_head then
      some (acquired { s with head := new_head } θ ptr new_head)
    else some (s.goto θ (.linking ptr new_head s.head))
  | .entering => some (s.goto θ (.scanning s.head []))
  | .scanning p set =>
    match (s.heap p).ptr with
    | none => some (s.goto θ (.advancing p set))
    | some ptr => some (s.goto θ (.advancing p (set.insert ptr)))
  | .advancing p set =>
    match s.next p with
    | some q => some (s.goto θ (.scanning q set))
    | none => some (s.goto θ (.sweeping (s.thread θ).store.keys set))
  | .sweeping todo _ => if todo = [] then some (s.goto θ .idle) else none
  | .releasing i =>
    match (s.thread θ).hp_list_[i]? with
    | none => some (s.goto θ (.leaving (s.thread θ).store.keys))
    | some hp =>
      -- `assert(nullptr == hp_list_[i]->ptr.load())`
      match (s.heap hp).ptr with
      | none => some ((s.writeFlag hp false).goto θ (.releasing (i + 1)))
      | some _ => none
  | .leaving todo => if todo = [] then some (s.goto θ .gone) else none
  | .asking key todo => some (s.goto θ (.comparing key todo s.head))
  | .comparing key todo p =>
    -- `while (Hazard(it->first))`
    if (s.heap p).ptr = some key then some (s.goto θ (.asking key todo))
    else some (s.goto θ (.stepping key todo p))
  | .stepping key todo p =>
    match s.next p with
    | some q => some (s.goto θ (.comparing key todo q))
    | none => delete s θ false key (.leaving todo)
  | .gone => none

/-- The loop over `reclaim_map_` comes to a key. -/
def visit (s : State Θ P F) (θ : Θ) (key : P) : Pc P → Option (State Θ P F)
  | .sweeping todo set =>
    if key ∈ todo then
      if key ∈ set then some (s.goto θ (.sweeping (todo.erase key) set))
      else delete s θ true key (.sweeping (todo.erase key) set)
    else none
  | .leaving todo => if key ∈ todo then some (s.goto θ (.asking key (todo.erase key))) else none
  | _ => none

/-- One step of the system. -/
def step (s : State Θ P F) : Action Θ P F → Option (State Θ P F)
  | .call θ c =>
    match (s.thread θ).pc with
    | .idle => start s θ c
    | _ => none
  | .run θ strong => run s θ strong (s.thread θ).pc
  | .visit θ key => visit s θ key (s.thread θ).pc

end

/-- A new list has one hazard pointer, which `size` does not count; the reclaimers are new. -/
def initial : State Θ P F where
  heap := fun _ => ⟨false, none, none⟩
  fresh := 1
  head := 0
  size := 0
  thread := fun _ => ⟨[], .initial, .idle, none⟩
  retired := []
  deleted := []

/-- The threads and their reclaimers. -/
def system (Θ P F : Type*) [DecidableEq Θ] [DecidableEq P] :
    LTS (State Θ P F) (Action Θ P F) where
  init := fun s => s = initial
  step := step

end LimWebserver.Hazard
