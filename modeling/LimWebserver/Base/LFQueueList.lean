import LimWebserver.Base.LFQueue

namespace LimWebserver.LFQueueList

open LimWebserver.Lib

/-!
# Base — `LFQueue` as a list

Calls on any number of `LFQueue`s with one heap, executed one after the other.

* `State`, `enqueue`, `dequeue`, `concatenate` — the member functions, each run to its end;
* `Lists` — what the queues are for: lists of numbered values;
* `Refines` — the heap holds the lists; `enqueue_refines`, `dequeue_refines`, `concatenate_refines`;
* `run_refines` — after every sequence of calls.
-/

open LFQueue (Queue)

/-- A node. -/
structure Node (α : Type*) where
  data_ : α
  next_ : Option Nat
  deriving DecidableEq, Repr

/-- The queues and their nodes. -/
structure State (Q α : Type*) where
  heap : Nat → Option (Node α)
  /-- the next address of `new` -/
  fresh : Nat
  queue : Q → Queue
  /-- the addresses that have been given to `delete` -/
  freed : List Nat
  /-- a node that is not there has been read, written or freed -/
  dangling : Bool

variable {Q α : Type*}

namespace State

/-- Read `node->next_`. -/
def next (s : State Q α) (x : Nat) : Option Nat := (s.heap x).bind Node.next_

/-- Record an access to a node. -/
def touch (s : State Q α) (x : Nat) : State Q α :=
  match s.heap x with
  | none => { s with dangling := true }
  | some _ => s

/-- Write `node->next_`. -/
def writeNext (s : State Q α) (x : Nat) (y : Option Nat) : State Q α :=
  match s.heap x with
  | none => { s with dangling := true }
  | some node => { s with heap := Function.update s.heap x (some { node with next_ := y }) }

/-- `delete node` -/
def delete (s : State Q α) (x : Nat) : State Q α :=
  { s.touch x with heap := Function.update s.heap x none, freed := s.freed ++ [x] }

end State

section
variable [DecidableEq Q]

namespace State

def setHead (s : State Q α) (q : Q) (p : Option Nat) : State Q α :=
  { s with queue := Function.update s.queue q { s.queue q with head_ := p } }

def setTail (s : State Q α) (q : Q) (p : Option Nat) : State Q α :=
  { s with queue := Function.update s.queue q { s.queue q with tail_ := p } }

/-- `enqueue(value)` -/
def enqueue (s : State Q α) (q : Q) (value : α) : State Q α :=
  let new_node := s.fresh
  let s := { s with
    heap := Function.update s.heap new_node (some ⟨value, none⟩)
    fresh := new_node + 1 }
  let old_tail := (s.queue q).tail_
  let s := s.setTail q (some new_node)
  match old_tail with
  | some old_tail => s.writeNext old_tail (some new_node)
  | none => s.setHead q (some new_node)

/-- The loop of `dequeue`; `strong` says which of the compare-exchanges do not fail spuriously, and
    there is no result when the loop has not ended after all of them. -/
def dequeueLoop (q : Q) : List Bool → State Q α → Option Nat → Option (State Q α × Option Nat)
  | _, s, none => some (s, none)
  | [], _, some _ => none
  | strong :: more, s, some old_head =>
    let s' := s.touch old_head
    if strong && (s.queue q).head_ = some old_head then
      some (s'.setHead q (s.next old_head), some old_head)
    else dequeueLoop q more s' (s'.queue q).head_

/-- `dequeue(value)`, and the value when it returns true. -/
def dequeue (s : State Q α) (q : Q) (strong : List Bool) : Option (State Q α × Option α) :=
  (dequeueLoop q strong s (s.queue q).head_).map fun
    | (s, none) => (s.setTail q none, none)
    | (s, some old_head) =>
      let value := (s.heap old_head).map Node.data_
      let s := s.touch old_head
      let s := if (s.next old_head).isNone then s.setTail q none else s
      (s.delete old_head, value)

/-- `a.concatenate(b)`, and its result. -/
def concatenate (s : State Q α) (a b : Q) : State Q α × Bool :=
  let otherHead := (s.queue b).head_
  let s := s.setHead b none
  match otherHead with
  | none => (s, false)
  | some otherHead =>
    let prevTail := (s.queue a).tail_
    let s := s.setTail a (some otherHead)
    let s := match prevTail with
      | some prevTail => s.writeNext prevTail (some otherHead)
      | none => s.setHead a (some otherHead)
    let otherTail := (s.queue b).tail_
    let s := s.setTail b none
    (s.setTail a otherTail, true)

end State

/-- The calls; a compare-exchange of `dequeue` fails spuriously `spurious` times. -/
inductive Op (Q α : Type*)
  | enqueue (q : Q) (value : α)
  | dequeue (q : Q) (spurious : Nat)
  | concatenate (a b : Q)
  deriving DecidableEq, Repr

/-- What a call returns. -/
inductive Result (α : Type*)
  | enqueue
  /-- the value, none for `false` -/
  | dequeue (value : Option α)
  | concatenate (result : Bool)
  deriving DecidableEq, Repr

/-- One call. -/
def State.step (s : State Q α) : Op Q α → Option (State Q α × Result α)
  | .enqueue q value => some (s.enqueue q value, .enqueue)
  | .dequeue q spurious =>
    (s.dequeue q (List.replicate spurious false ++ [true])).map fun r => (r.1, .dequeue r.2)
  | .concatenate a b => some ((s.concatenate a b).1, .concatenate (s.concatenate a b).2)

/-- The calls of a sequence, one after the other. -/
def State.run : State Q α → List (Op Q α) → Option (State Q α × List (Result α))
  | s, [] => some (s, [])
  | s, op :: ops =>
    (s.step op).bind fun r => (State.run r.1 ops).map fun r' => (r'.1, r.2 :: r'.2)

/-- New queues. -/
def initial : State Q α where
  heap := fun _ => none
  fresh := 0
  queue := fun _ => ⟨none, none⟩
  freed := []
  dangling := false

/-! ### Lists -/

/-- Lists of values, which are numbered in the order in which they are enqueued. -/
structure Lists (Q α : Type*) where
  queue : Q → List (Nat × α)
  fresh : Nat
  dequeued : List (Nat × α)

namespace Lists

/-- Append, pop from the front, and `a := a ++ b, b := []`. -/
def step (l : Lists Q α) : Op Q α → Lists Q α × Result α
  | .enqueue q value =>
    ({ l with queue := Function.update l.queue q (l.queue q ++ [(l.fresh, value)])
              fresh := l.fresh + 1 }, .enqueue)
  | .dequeue q _ =>
    match l.queue q with
    | [] => (l, .dequeue none)
    | x :: xs =>
      ({ l with queue := Function.update l.queue q xs
                dequeued := l.dequeued ++ [x] }, .dequeue (some x.2))
  | .concatenate a b =>
    ({ l with queue := Function.update (Function.update l.queue a (l.queue a ++ l.queue b)) b [] },
      .concatenate (l.queue b ≠ []))

def run : Lists Q α → List (Op Q α) → Lists Q α × List (Result α)
  | l, [] => (l, [])
  | l, op :: ops =>
    let r := l.step op
    let r' := r.1.run ops
    (r'.1, r.2 :: r'.2)

def initial : Lists Q α := ⟨fun _ => [], 0, []⟩

/-- The numbers of the values in a queue. -/
def nodes (l : Lists Q α) (q : Q) : List Nat := (l.queue q).map Prod.fst

end Lists

end

/-- A queue holds a list; the number of a value is the address of its node. -/
structure Holds (s : State Q α) (q : Q) (xs : List (Nat × α)) : Prop where
  /-- following `next_` from `head_` visits the nodes of the list, and no others -/
  chain : Chain s.next (s.queue q).head_ (xs.map Prod.fst) none
  data : ∀ x ∈ xs, (s.heap x.1).map Node.data_ = some x.2
  nodup : (xs.map Prod.fst).Nodup
  tail : (s.queue q).tail_ = (xs.map Prod.fst).getLast?
  null : (s.queue q).head_ = none ↔ (s.queue q).tail_ = none

/-- **The queues hold the lists.** -/
structure Refines (s : State Q α) (l : Lists Q α) : Prop where
  holds : ∀ q, Holds s q (l.queue q)
  /-- no node is in two queues -/
  apart : ∀ q q' x, x ∈ l.nodes q → x ∈ l.nodes q' → q = q'
  /-- the dequeued nodes, and no others, have been freed, each once -/
  freed : s.freed = l.dequeued.map Prod.fst
  once : s.freed.Nodup
  old : ∀ x ∈ s.freed, x < s.fresh
  heap : ∀ x, s.heap x = none ↔ s.fresh ≤ x ∨ x ∈ s.freed
  fresh : s.fresh = l.fresh
  dangling : s.dangling = false

section

variable {s s' : State Q α} {l : Lists Q α} {q : Q} {xs : List (Nat × α)} {x y : Nat}

/-! ### One queue -/

/-- A queue without nodes has neither head nor tail. -/
theorem Holds.of_chain (hchain : Chain s.next (s.queue q).head_ (xs.map Prod.fst) none)
    (hdata : ∀ x ∈ xs, (s.heap x.1).map Node.data_ = some x.2) (hnodup : (xs.map Prod.fst).Nodup)
    (htail : (s.queue q).tail_ = (xs.map Prod.fst).getLast?) : Holds s q xs := by
  refine ⟨hchain, hdata, hnodup, htail, ?_⟩
  rw [hchain.head, htail, List.getLast?_eq_none_iff]
  cases xs <;> simp

/-- A queue depends on its own nodes only. -/
theorem Holds.frame (h : Holds s q xs) (hq : s'.queue q = s.queue q)
    (hheap : ∀ x ∈ xs.map Prod.fst, s'.heap x = s.heap x) : Holds s' q xs := by
  refine .of_chain ?_ (fun x hx => ?_) h.nodup ?_
  · rw [hq]
    apply h.chain.frame
    intro x hx
    rw [State.next, hheap x hx]
    rfl
  · rw [hheap x.1 (List.mem_map_of_mem hx)]
    exact h.data x hx
  · rw [hq]
    exact h.tail

theorem Holds.isSome (h : Holds s q xs) (hx : x ∈ xs.map Prod.fst) :
    ∃ node, s.heap x = some node := by
  obtain ⟨e, he, rfl⟩ := List.mem_map.mp hx
  obtain ⟨node, hnode, -⟩ := Option.map_eq_some_iff.mp (h.data e he)
  exact ⟨node, hnode⟩

/-- The nodes of the queues are in the heap. -/
theorem Refines.lt (h : Refines s l) (hx : x ∈ l.nodes q) : x < s.fresh := by
  obtain ⟨node, hnode⟩ := (h.holds q).isSome hx
  by_contra hle
  rw [(h.heap x).mpr (.inl (not_lt.mp hle))] at hnode
  cases hnode

theorem Refines.not_freed (h : Refines s l) (hx : x ∈ l.nodes q) : x ∉ s.freed := by
  obtain ⟨node, hnode⟩ := (h.holds q).isSome hx
  intro hfreed
  rw [(h.heap x).mpr (.inr hfreed)] at hnode
  cases hnode

theorem refines_initial : Refines (initial : State Q α) Lists.initial := by
  refine ⟨fun q => ⟨rfl, by simp [Lists.initial], by simp [Lists.initial], rfl, Iff.rfl⟩, ?_, rfl,
    List.nodup_nil, by simp [initial], fun x => ?_, rfl, rfl⟩
  · simp [Lists.initial, Lists.nodes]
  · simp [initial]

theorem data_eq_none {m : Option (Node α)} : m.map Node.data_ = none ↔ m = none :=
  Option.map_eq_none_iff

theorem touch_eq {node : Node α} (h : s.heap x = some node) : s.touch x = s := by
  rw [State.touch, h]

theorem writeNext_eq {node : Node α} (h : s.heap x = some node) (p : Option Nat) :
    s.writeNext x p =
      { s with heap := Function.update s.heap x (some { node with next_ := p }) } := by
  rw [State.writeNext, h]

/-- What a write of `next_` changes. -/
theorem next_update (s : State Q α) (x : Nat) (node : Node α) :
    (fun y => (Function.update s.heap x (some node) y).bind Node.next_) =
      Function.update s.next x node.next_ := by
  funext y
  rcases eq_or_ne y x with rfl | hne
  · rw [Function.update_self, Function.update_self]
    rfl
  · rw [Function.update_of_ne hne, Function.update_of_ne hne]
    rfl

/-! ### The calls -/

variable [DecidableEq Q] {a b : Q} {value : α}

/-- `enqueue` into a queue without nodes. -/
theorem enqueue_of_none (h : (s.queue q).tail_ = none) (value : α) :
    s.enqueue q value =
      { s with
        heap := Function.update s.heap s.fresh (some ⟨value, none⟩)
        fresh := s.fresh + 1
        queue := Function.update s.queue q ⟨some s.fresh, some s.fresh⟩ } := by
  simp [State.enqueue, State.setTail, State.setHead, h]

/-- `enqueue` behind the node `t`. -/
theorem enqueue_of_some {t : Nat} {node : Node α} (h : (s.queue q).tail_ = some t)
    (ht : s.heap t = some node) (hne : t ≠ s.fresh) (value : α) :
    s.enqueue q value =
      { s with
        heap := Function.update (Function.update s.heap s.fresh (some ⟨value, none⟩)) t
          (some { node with next_ := some s.fresh })
        fresh := s.fresh + 1
        queue := Function.update s.queue q ⟨(s.queue q).head_, some s.fresh⟩ } := by
  simp [State.enqueue, State.setTail, State.writeNext, h, ht, Function.update_of_ne hne]

/-- The nodes of a list with a value behind it. -/
theorem nodes_enqueue (l : Lists Q α) (q q' : Q) (value : α) :
    (l.step (.enqueue q value)).1.nodes q' =
      if q' = q then l.nodes q ++ [l.fresh] else l.nodes q' := by
  show (Function.update l.queue q _ q').map Prod.fst = _
  rcases eq_or_ne q' q with rfl | hne
  · rw [Function.update_self, if_pos rfl, List.map_append]
    rfl
  · rw [Function.update_of_ne hne, if_neg hne]
    rfl

/-- **`enqueue`.** It puts a new node behind the nodes of the queue. -/
theorem enqueue_spec (h : Refines s l) (q : Q) (value : α) : ∃ heap' head',
    s.enqueue q value = { s with
      heap := heap'
      fresh := s.fresh + 1
      queue := Function.update s.queue q ⟨head', some s.fresh⟩ } ∧
    Chain (fun y => (heap' y).bind Node.next_) head' (l.nodes q ++ [s.fresh]) none ∧
    (heap' s.fresh).map Node.data_ = some value ∧
    (∀ x, x ≠ s.fresh → (heap' x).map Node.data_ = (s.heap x).map Node.data_) ∧
    (∀ x, x ≠ s.fresh → x ∉ l.nodes q → heap' x = s.heap x) := by
  have hq := h.holds q
  have hlast : (s.queue q).tail_ = (l.nodes q).getLast? := hq.tail
  have hnew : s.fresh ∉ l.nodes q := fun hin => lt_irrefl _ (h.lt hin)
  cases htail : (s.queue q).tail_ with
  | none =>
    have hnil : l.nodes q = [] := by
      rw [htail] at hlast
      exact List.getLast?_eq_none_iff.mp hlast.symm
    refine ⟨_, _, enqueue_of_none htail value, ?_, ?_, fun x hx => ?_, fun x hx _ => ?_⟩
    · rw [hnil, next_update]
      exact ⟨rfl, Function.update_self _ _ _⟩
    · rw [Function.update_self]
      rfl
    · rw [Function.update_of_ne hx]
    · rw [Function.update_of_ne hx]
  | some t =>
    rw [htail] at hlast
    obtain ⟨ts, hts⟩ : ∃ ts, l.nodes q = ts ++ [t] := List.getLast?_eq_some_iff.mp hlast.symm
    have hin : t ∈ l.nodes q := by rw [hts]; simp
    obtain ⟨node, hnode⟩ := hq.isSome hin
    have hne : t ≠ s.fresh := (h.lt hin).ne
    refine ⟨_, _, enqueue_of_some htail hnode hne value, ?_, ?_, fun x hx => ?_,
      fun x hx hout => ?_⟩
    · -- the old nodes, a link from the last of them, and the new node
      have hchain : Chain s.next (s.queue q).head_ (ts ++ [t]) none := hts ▸ hq.chain
      have hnext : (fun y => ((Function.update s.heap s.fresh (some ⟨value, none⟩)) y).bind
          Node.next_) = Function.update s.next s.fresh none := next_update s _ _
      have hkeep : ∀ y ∈ ts ++ [t], Function.update s.next s.fresh none y = s.next y := by
        intro y hy
        refine Function.update_of_ne ?_ _ _
        rintro rfl
        exact hnew (hts ▸ hy)
      have hlink := (hchain.frame hkeep).link (s := some s.fresh) (m := [s.fresh]) (r := none)
        ?_ (by simpa using hne) ⟨rfl, Function.update_self _ _ _⟩
      · rw [hts]
        convert hlink using 1
        funext y
        rcases eq_or_ne y t with rfl | hy
        · rw [Function.update_self, Function.update_self]
          rfl
        · rw [Function.update_of_ne hy, Function.update_of_ne hy]
          exact congrFun hnext y
      · have hnd := hq.nodup
        rw [show (l.queue q).map Prod.fst = ts ++ [t] from hts, List.nodup_append] at hnd
        exact fun ht => hnd.2.2 t ht t (by simp) rfl
    · rw [Function.update_of_ne hne.symm, Function.update_self]
      rfl
    · rcases eq_or_ne x t with rfl | hxt
      · rw [Function.update_self, hnode]
        rfl
      · rw [Function.update_of_ne hxt, Function.update_of_ne hx]
    · have hxt : x ≠ t := by
        rintro rfl
        exact hout hin
      rw [Function.update_of_ne hxt, Function.update_of_ne hx]

theorem enqueue_refines (h : Refines s l) (q : Q) (value : α) :
    Refines (s.enqueue q value) (l.step (.enqueue q value)).1 := by
  obtain ⟨heap', head', heq, hchain, hvalue, hdata, hkeep⟩ := enqueue_spec h q value
  have hnodes := fun q' => nodes_enqueue l q q' value
  have hnew : ∀ q', s.fresh ∉ l.nodes q' := fun q' hin => lt_irrefl _ (h.lt hin)
  rw [heq]
  constructor
  case holds =>
    intro q'
    rcases eq_or_ne q' q with rfl | hne
    · have hqueue : (l.step (.enqueue q' value)).1.queue q' = l.queue q' ++ [(s.fresh, value)] := by
        rw [h.fresh]
        exact Function.update_self _ _ _
      rw [hqueue]
      -- the old values with their nodes, and the new one
      refine .of_chain ?_ (fun e he => ?_) ?_ ?_
      · simp only [Function.update_self, List.map_append]
        exact hchain
      · rcases List.mem_append.mp he with he | he
        · have hne : e.1 ≠ s.fresh := (h.lt (List.mem_map_of_mem he)).ne
          exact (hdata e.1 hne).trans ((h.holds q').data e he)
        · rw [List.mem_singleton.mp he]
          exact hvalue
      · have hnd := List.Nodup.concat (hnew q') (h.holds q').nodup
        rw [List.concat_eq_append] at hnd
        rw [List.map_append]
        exact hnd
      · simp
    · have hqueue : (l.step (.enqueue q value)).1.queue q' = l.queue q' :=
        Function.update_of_ne hne _ _
      rw [hqueue]
      apply (h.holds q').frame (Function.update_of_ne hne _ _)
      intro x hx
      have hx' : x ≠ s.fresh := (h.lt hx).ne
      exact hkeep x hx' fun hq => hne (h.apart q' q x hx hq)
  case apart =>
    -- a node is an old one of its queue, or the new one
    intro q₁ q₂ x h₁ h₂
    rw [hnodes] at h₁ h₂
    have hboth : ∀ {q'}, x ∈ (if q' = q then l.nodes q ++ [l.fresh] else l.nodes q') →
        (q' = q ∧ x = s.fresh) ∨ x ∈ l.nodes q' := by
      intro q' hx
      split at hx
      · rename_i heq
        rcases List.mem_append.mp hx with hx | hx
        · exact .inr (heq ▸ hx)
        · exact .inl ⟨heq, h.fresh ▸ List.mem_singleton.mp hx⟩
      · exact .inr hx
    rcases hboth h₁ with ⟨hq₁, hx₁⟩ | h₁' <;> rcases hboth h₂ with ⟨hq₂, hx₂⟩ | h₂'
    · exact hq₁.trans hq₂.symm
    · exact absurd (hx₁ ▸ h₂') (hnew q₂)
    · exact absurd (hx₂ ▸ h₁') (hnew q₁)
    · exact h.apart q₁ q₂ x h₁' h₂'
  case freed => exact h.freed
  case once => exact h.once
  case old => exact fun x hx => (h.old x hx).trans (Nat.lt_succ_self _)
  case heap =>
    intro x
    show heap' x = none ↔ s.fresh + 1 ≤ x ∨ x ∈ s.freed
    rcases eq_or_ne x s.fresh with rfl | hne
    · rw [← data_eq_none, hvalue]
      have hfresh : s.fresh ∉ s.freed := fun hin => lt_irrefl _ (h.old _ hin)
      simp [hfresh]
    · -- which of the old nodes are there has not changed
      rw [← data_eq_none, hdata x hne, data_eq_none, h.heap]
      apply or_congr_left
      omega
  case fresh => exact congrArg (· + 1) h.fresh
  case dangling => exact h.dangling

/-- The loop of `dequeue` ends when a compare-exchange does not fail spuriously. -/
theorem dequeueLoop_eq {node : Node α} (hhead : (s.queue q).head_ = some x)
    (hx : s.heap x = some node) (spurious : Nat) :
    State.dequeueLoop q (List.replicate spurious false ++ [true]) s (some x) =
      some (s.setHead q (s.next x), some x) := by
  -- on the number of failures: each of them loads the same head again
  induction spurious with
  | zero => simp [State.dequeueLoop, hhead, touch_eq hx]
  | succ n ih =>
    rw [List.replicate_succ, List.cons_append, State.dequeueLoop, touch_eq hx]
    simp only [Bool.false_and, Bool.false_eq_true, if_false, hhead]
    exact ih

theorem dequeue_of_none (h : (s.queue q).head_ = none) (spurious : Nat) :
    s.dequeue q (List.replicate spurious false ++ [true]) = some (s.setTail q none, none) := by
  rw [State.dequeue, h]
  simp [State.dequeueLoop]

theorem dequeue_of_some {node : Node α} (hhead : (s.queue q).head_ = some x)
    (hx : s.heap x = some node) (spurious : Nat) :
    s.dequeue q (List.replicate spurious false ++ [true]) = some ({ s with
      heap := Function.update s.heap x none
      queue := Function.update s.queue q
        ⟨node.next_, if node.next_ = none then none else (s.queue q).tail_⟩
      freed := s.freed ++ [x] }, some node.data_) := by
  have hnext : s.next x = node.next_ := by
    rw [State.next, hx]
    rfl
  rw [State.dequeue, hhead, dequeueLoop_eq hhead hx, hnext]
  cases hn : node.next_ <;>
    simp [State.setHead, State.setTail, State.touch, State.delete, State.next, hx, hn]

/-- The queue without its first node, which is freed. -/
theorem Holds.pop {node : Node α} (h : Holds s q ((x, value) :: xs)) (hx : s.heap x = some node) :
    Holds { s with
      heap := Function.update s.heap x none
      queue := Function.update s.queue q
        ⟨node.next_, if node.next_ = none then none else (s.queue q).tail_⟩
      freed := s.freed ++ [x] } q xs := by
  have hnext : s.next x = node.next_ := by
    rw [State.next, hx]
    rfl
  have hchain : Chain s.next (s.queue q).head_ (x :: xs.map Prod.fst) none := h.chain
  obtain ⟨-, hrest⟩ := hchain
  rw [hnext] at hrest
  have hnodup : (x :: xs.map Prod.fst).Nodup := h.nodup
  obtain ⟨hnot, hxs⟩ := List.nodup_cons.mp hnodup
  -- the other nodes stay
  have hkeep : ∀ y ∈ xs.map Prod.fst, Function.update s.heap x none y = s.heap y := by
    intro y hy
    refine Function.update_of_ne ?_ _ _
    rintro rfl
    exact hnot hy
  refine .of_chain ?_ (fun e he => ?_) hxs ?_
  · simp only [Function.update_self]
    exact hrest.frame fun y hy => congrArg (Option.bind · Node.next_) (hkeep y hy)
  · show (Function.update s.heap x none e.1).map _ = _
    rw [hkeep e.1 (List.mem_map_of_mem he)]
    exact h.data e (List.mem_cons_of_mem _ he)
  · -- the tail is reset exactly when no node is left
    simp only [Function.update_self]
    rw [hrest.head, h.tail]
    cases xs <;> rfl

theorem dequeue_refines (h : Refines s l) (q : Q) (spurious : Nat) :
    ∃ s', s.step (.dequeue q spurious) = some (s', (l.step (.dequeue q spurious)).2) ∧
      Refines s' (l.step (.dequeue q spurious)).1 := by
  have hq := h.holds q
  cases hl : l.queue q with
  | nil =>
    -- the tail of an empty queue is set to null, which it is already
    rw [hl] at hq
    have hhead : (s.queue q).head_ = none := hq.chain
    have hstep : l.step (.dequeue q spurious) = (l, .dequeue none) := by simp only [Lists.step, hl]
    have hsame : s.setTail q none = s := by
      have htail : (s.queue q).tail_ = none := hq.tail
      rw [State.setTail, ← htail, Function.update_eq_self]
    rw [State.step, dequeue_of_none hhead, hstep, hsame]
    exact ⟨s, rfl, h⟩
  | cons e es =>
    obtain ⟨x, value⟩ := e
    rw [hl] at hq
    have hhead : (s.queue q).head_ = some x := hq.chain.1
    have hdata : (s.heap x).map Node.data_ = some value := hq.data _ List.mem_cons_self
    obtain ⟨node, hnode, hvalue⟩ := Option.map_eq_some_iff.mp hdata
    have hstep : l.step (.dequeue q spurious) =
        ({ l with queue := Function.update l.queue q es
                  dequeued := l.dequeued ++ [(x, value)] }, .dequeue (some value)) := by
      simp only [Lists.step, hl]
    have hx : x ∈ l.nodes q := by rw [Lists.nodes, hl]; exact List.mem_cons_self
    rw [State.step, dequeue_of_some hhead hnode, hstep, hvalue]
    refine ⟨_, rfl, ?_⟩
    constructor
    case holds =>
      intro q'
      rcases eq_or_ne q' q with rfl | hne
      · simp only [Function.update_self]
        exact hq.pop hnode
      · simp only [Function.update_of_ne hne]
        apply (h.holds q').frame (Function.update_of_ne hne _ _)
        intro y hy
        refine Function.update_of_ne ?_ _ _
        rintro rfl
        exact hne (h.apart q' q y hy hx)
    case apart =>
      have hsub : ∀ q' y, y ∈ (Function.update l.queue q es q').map Prod.fst → y ∈ l.nodes q' := by
        intro q' y hy
        rcases eq_or_ne q' q with rfl | hne
        · rw [Function.update_self] at hy
          rw [Lists.nodes, hl]
          exact List.mem_cons_of_mem _ hy
        · rwa [Function.update_of_ne hne] at hy
      exact fun q₁ q₂ y h₁ h₂ => h.apart q₁ q₂ y (hsub q₁ y h₁) (hsub q₂ y h₂)
    case freed =>
      rw [List.map_append, ← h.freed]
      rfl
    case once =>
      have hnd := List.Nodup.concat (h.not_freed hx) h.once
      rwa [List.concat_eq_append] at hnd
    case old =>
      intro y hy
      rcases List.mem_append.mp hy with hy | hy
      · exact h.old y hy
      · rw [List.mem_singleton.mp hy]
        exact h.lt hx
    case heap =>
      intro y
      show Function.update s.heap x none y = none ↔ s.fresh ≤ y ∨ y ∈ s.freed ++ [x]
      rcases eq_or_ne y x with rfl | hne
      · simp
      · rw [Function.update_of_ne hne, h.heap]
        simp [hne]
    case fresh => exact h.fresh
    case dangling => exact h.dangling

theorem concatenate_of_none (h : (s.queue b).head_ = none) :
    s.concatenate a b = (s, false) := by
  have hsame : s.setHead b none = s := by
    rw [State.setHead, ← h, Function.update_eq_self]
  rw [State.concatenate, h, hsame]

/-- The last writes to two queues are what counts. -/
theorem update_update {f g : Q → Queue} (hab : a ≠ b) (hfg : ∀ q, q ≠ a → q ≠ b → g q = f q)
    (p p' : Queue) : Function.update (Function.update g b p') a p =
      Function.update (Function.update f a p) b p' := by
  funext q
  rcases eq_or_ne q a with rfl | hqa
  · rw [Function.update_self, Function.update_of_ne hab, Function.update_self]
  · rcases eq_or_ne q b with rfl | hqb
    · rw [Function.update_of_ne hqa, Function.update_self, Function.update_self]
    · simp only [Function.update_of_ne hqa, Function.update_of_ne hqb]
      exact hfg q hqa hqb

/-- `concatenate` with a queue that has nodes, behind no nodes. -/
theorem concatenate_of_empty {h : Nat} (hab : a ≠ b) (hhead : (s.queue b).head_ = some h)
    (htail : (s.queue a).tail_ = none) :
    s.concatenate a b = ({ s with
      queue := Function.update (Function.update s.queue a ⟨some h, (s.queue b).tail_⟩) b
        ⟨none, none⟩ }, true) := by
  simp only [State.concatenate, hhead, State.setHead, State.setTail, Function.update_of_ne hab,
    Function.update_of_ne hab.symm, Function.update_self, htail]
  rw [update_update hab]
  intro q hqa hqb
  rw [Function.update_of_ne hqa, Function.update_of_ne hqa, Function.update_of_ne hqb]

/-- `concatenate` with a queue that has nodes, behind the node `t`. -/
theorem concatenate_of_tail {h t : Nat} {node : Node α} (hab : a ≠ b)
    (hhead : (s.queue b).head_ = some h) (htail : (s.queue a).tail_ = some t)
    (ht : s.heap t = some node) :
    s.concatenate a b = ({ s with
      heap := Function.update s.heap t (some { node with next_ := some h })
      queue := Function.update (Function.update s.queue a ⟨(s.queue a).head_, (s.queue b).tail_⟩) b
        ⟨none, none⟩ }, true) := by
  simp only [State.concatenate, hhead, State.setHead, State.setTail, State.writeNext, ht,
    Function.update_of_ne hab, Function.update_of_ne hab.symm, Function.update_self, htail]
  rw [update_update hab]
  intro q hqa hqb
  rw [Function.update_of_ne hqa, Function.update_of_ne hqb]

/-- **`concatenate`.** It links the nodes of the second queue behind those of the first one. -/
theorem concatenate_spec (h : Refines s l) (hab : a ≠ b) {x : Nat}
    (hhead : (s.queue b).head_ = some x) : ∃ heap' head',
    s.concatenate a b = ({ s with
      heap := heap'
      queue := Function.update (Function.update s.queue a ⟨head', (s.queue b).tail_⟩) b
        ⟨none, none⟩ }, true) ∧
    Chain (fun y => (heap' y).bind Node.next_) head' (l.nodes a ++ l.nodes b) none ∧
    (∀ y, (heap' y).map Node.data_ = (s.heap y).map Node.data_) ∧
    (∀ y, y ∉ l.nodes a → heap' y = s.heap y) := by
  have ha := h.holds a
  have hb := h.holds b
  have hbchain : Chain s.next (some x) (l.nodes b) none := hhead ▸ hb.chain
  have hlast : (s.queue a).tail_ = (l.nodes a).getLast? := ha.tail
  cases htail : (s.queue a).tail_ with
  | none =>
    have hnil : l.nodes a = [] := by
      rw [htail] at hlast
      exact List.getLast?_eq_none_iff.mp hlast.symm
    refine ⟨s.heap, _, concatenate_of_empty hab hhead htail, ?_, fun y => rfl, fun y _ => rfl⟩
    rw [hnil]
    exact hbchain
  | some t =>
    rw [htail] at hlast
    obtain ⟨ts, hts⟩ : ∃ ts, l.nodes a = ts ++ [t] := List.getLast?_eq_some_iff.mp hlast.symm
    have hin : t ∈ l.nodes a := by rw [hts]; simp
    obtain ⟨node, hnode⟩ := ha.isSome hin
    refine ⟨_, _, concatenate_of_tail hab hhead htail hnode, ?_, fun y => ?_, fun y hy => ?_⟩
    · have hchain : Chain s.next (s.queue a).head_ (ts ++ [t]) none := hts ▸ ha.chain
      have hnd : (ts ++ [t]).Nodup := hts ▸ ha.nodup
      rw [next_update, hts]
      refine hchain.link (fun ht => ?_) (fun ht => ?_) hbchain
      · exact (List.nodup_append.mp hnd).2.2 t ht t (by simp) rfl
      · exact hab (h.apart a b t hin ht)
    · rcases eq_or_ne y t with rfl | hne
      · rw [Function.update_self, hnode]
        rfl
      · rw [Function.update_of_ne hne]
    · refine Function.update_of_ne ?_ _ _
      rintro rfl
      exact hy hin

/-- The lists after `concatenate`. -/
theorem queue_concatenate (l : Lists Q α) (a b q : Q) :
    (l.step (.concatenate a b)).1.queue q =
      if q = b then [] else if q = a then l.queue a ++ l.queue b else l.queue q := by
  show Function.update (Function.update l.queue a _) b [] q = _
  simp only [Function.update_apply]

/-- A node that changes its queue leaves the old one. -/
theorem apart_concatenate (h : Refines s l) (a b : Q) (q₁ q₂ : Q) (y : Nat)
    (h₁ : y ∈ (l.step (.concatenate a b)).1.nodes q₁)
    (h₂ : y ∈ (l.step (.concatenate a b)).1.nodes q₂) : q₁ = q₂ := by
  have hfrom : ∀ q, y ∈ (l.step (.concatenate a b)).1.nodes q →
      q ≠ b ∧ (y ∈ l.nodes q ∨ (q = a ∧ y ∈ l.nodes b)) := by
    intro q hy
    rw [Lists.nodes, queue_concatenate] at hy
    rcases eq_or_ne q b with rfl | hqb
    · simp at hy
    rw [if_neg hqb] at hy
    refine ⟨hqb, ?_⟩
    rcases eq_or_ne q a with rfl | hqa
    · rw [if_pos rfl, List.map_append, List.mem_append] at hy
      exact hy.imp_right fun hy => ⟨rfl, hy⟩
    · rw [if_neg hqa] at hy
      exact .inl hy
  -- a node that comes from `b` was in no other queue before
  obtain ⟨hb₁, h₁' | ⟨ha₁, h₁'⟩⟩ := hfrom q₁ h₁ <;>
    obtain ⟨hb₂, h₂' | ⟨ha₂, h₂'⟩⟩ := hfrom q₂ h₂
  · exact h.apart q₁ q₂ y h₁' h₂'
  · exact absurd (h.apart q₁ b y h₁' h₂') hb₁
  · exact absurd (h.apart q₂ b y h₂' h₁') hb₂
  · exact ha₁.trans ha₂.symm

theorem concatenate_refines (h : Refines s l) (hab : a ≠ b) :
    ∃ s', s.step (.concatenate a b) = some (s', (l.step (.concatenate a b)).2) ∧
      Refines s' (l.step (.concatenate a b)).1 := by
  have hb := h.holds b
  have hbhead : (s.queue b).head_ = (l.nodes b)[0]? := hb.chain.head
  cases hhead : (s.queue b).head_ with
  | none =>
    -- nothing to take over
    have hnil : l.queue b = [] := by
      rw [hhead] at hbhead
      cases hl : l.queue b with
      | nil => rfl
      | cons e es => simp [Lists.nodes, hl] at hbhead
    have hstep : l.step (.concatenate a b) = (l, .concatenate false) := by
      have hsame :
          Function.update (Function.update l.queue a (l.queue a ++ [])) b [] = l.queue := by
        rw [List.append_nil, Function.update_eq_self, ← hnil, Function.update_eq_self]
      simp only [Lists.step, hnil, hsame, ne_eq, not_true_eq_false, decide_false]
    rw [State.step, concatenate_of_none hhead, hstep]
    exact ⟨s, rfl, h⟩
  | some x =>
    have hne : l.queue b ≠ [] := by
      intro hnil
      rw [hhead, Lists.nodes, hnil] at hbhead
      cases hbhead
    obtain ⟨heap', head', heq, hchain, hdata, hkeep⟩ := concatenate_spec h hab hhead
    have hqueue := queue_concatenate l a b
    have hresult : (l.step (.concatenate a b)).2 = .concatenate true := by
      simp [Lists.step, hne]
    rw [State.step, heq, hresult]
    refine ⟨_, rfl, ?_⟩
    constructor
    case holds =>
      intro q
      rw [hqueue]
      rcases eq_or_ne q b with rfl | hqb
      · -- the other queue has given everything away
        rw [if_pos rfl]
        refine .of_chain ?_ (by simp) (by simp) ?_ <;> simp
      rw [if_neg hqb]
      rcases eq_or_ne q a with rfl | hqa
      · rw [if_pos rfl]
        refine .of_chain ?_ (fun e he => ?_) ?_ ?_
        · simp only [Function.update_of_ne hqb, Function.update_self, List.map_append]
          exact hchain
        · apply (hdata e.1).trans
          rcases List.mem_append.mp he with he | he
          · exact (h.holds q).data e he
          · exact hb.data e he
        · rw [List.map_append, List.nodup_append]
          refine ⟨(h.holds q).nodup, hb.nodup, fun y hy z hz hyz => ?_⟩
          exact hab (h.apart q b y hy (hyz ▸ hz))
        · simp only [Function.update_of_ne hqb, Function.update_self]
          rw [hb.tail, List.map_append, List.getLast?_append_of_ne_nil _ (by simpa using hne)]
      · rw [if_neg hqa]
        refine (h.holds q).frame ?_ fun y hy => hkeep y fun hya => hqa (h.apart q a y hy hya)
        simp only [Function.update_of_ne hqb, Function.update_of_ne hqa]
    case apart => exact apart_concatenate h a b
    case freed => exact h.freed
    case once => exact h.once
    case old => exact h.old
    case heap =>
      intro y
      show heap' y = none ↔ _
      rw [← data_eq_none, hdata y, data_eq_none]
      exact h.heap y
    case fresh => exact h.fresh
    case dangling => exact h.dangling

/-! ### Every sequence of calls -/

/-- `concatenate` is called with another queue. -/
def Op.Distinct : Op Q α → Prop
  | .concatenate a b => a ≠ b
  | .enqueue _ _ | .dequeue _ _ => True

theorem step_refines {op : Op Q α} (h : Refines s l) (hop : op.Distinct) :
    ∃ s', s.step op = some (s', (l.step op).2) ∧ Refines s' (l.step op).1 := by
  cases op with
  | enqueue q value => exact ⟨_, rfl, enqueue_refines h q value⟩
  | dequeue q spurious => exact dequeue_refines h q spurious
  | concatenate a b => exact concatenate_refines h hop

theorem Refines.run {ops : List (Op Q α)} (h : Refines s l) (hops : ∀ op ∈ ops, op.Distinct) :
    ∃ s', s.run ops = some (s', (l.run ops).2) ∧ Refines s' (l.run ops).1 := by
  -- each call returns what the lists say and leaves queues that hold the lists
  induction ops generalizing s l with
  | nil => exact ⟨s, rfl, h⟩
  | cons op ops ih =>
    obtain ⟨s₁, hstep, h₁⟩ := step_refines h (hops op List.mem_cons_self)
    obtain ⟨s', hrun, h'⟩ := ih h₁ fun op hop => hops op (List.mem_cons_of_mem _ hop)
    refine ⟨s', ?_, h'⟩
    rw [State.run, hstep, Option.bind_some, hrun]
    rfl

/-- **Queues are lists.** After every sequence of calls each of them has returned, with the result
    that the lists say, and the queues hold the lists. -/
theorem run_refines {ops : List (Op Q α)} (hops : ∀ op ∈ ops, op.Distinct) :
    ∃ s, State.run initial ops = some (s, (Lists.initial.run ops).2) ∧
      Refines s (Lists.initial.run ops).1 :=
  refines_initial.run hops

end

/-- Two queues: the second one is taken over and dequeued to its end. -/
theorem run_refines_two : ∃ s : State Bool Nat,
    State.run initial [.enqueue true 1, .enqueue false 2, .concatenate true false,
      .dequeue true 1, .dequeue true 0, .dequeue true 0, .concatenate true false] =
      some (s, [.enqueue, .enqueue, .concatenate true, .dequeue (some 1), .dequeue (some 2),
        .dequeue none, .concatenate false]) ∧ s.freed = [0, 1] := by
  have hops : ∀ op ∈ ([.enqueue true 1, .enqueue false 2, .concatenate true false,
      .dequeue true 1, .dequeue true 0, .dequeue true 0, .concatenate true false] :
        List (Op Bool Nat)), op.Distinct := by
    simp [Op.Distinct]
  obtain ⟨s, hrun, hs⟩ := run_refines hops
  exact ⟨s, hrun, hs.freed⟩

end LimWebserver.LFQueueList
