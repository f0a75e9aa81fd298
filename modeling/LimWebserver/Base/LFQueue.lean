import LimWebserver.Lib.Chain
import LimWebserver.Lib.Transition
import Mathlib.Data.Fintype.Option

namespace LimWebserver.LFQueue

open LimWebserver.Lib

/-!
# Base — `LFQueue`

Any number of producers call `newQueue.enqueue` while one consumer calls
`runableQueue.concatenate(newQueue)`, `runableQueue.enqueue` and `runableQueue.dequeue`, as the
threads around a `Processor` do.  Every atomic exchange, store and compare-exchange and every plain
read or write of a node is one step, in one global order.

* `Node`, `Queue`, `State` — the nodes in a heap, the two queues, the program points of all threads,
  and what has been enqueued and dequeued so far;
* `enqueueStep`, `consumerStep` — the steps;
* `Kept` — what a queue is for: nothing lost, nothing twice, nothing freed is touched, and the order
  of each producer is kept;
* `dequeue_loses_node` — a consumer that overtakes a producer half-way through `enqueue`;
* `Settled` — the condition on the steps that leaves exactly this out.
-/

/-- A node; `owner` is the thread that enqueued it, `none` for the consumer. -/
structure Node (P α : Type*) where
  owner : Option P
  data_ : α
  next_ : Option Nat
  deriving DecidableEq, Repr

/-- A queue. -/
structure Queue where
  head_ : Option Nat
  tail_ : Option Nat
  deriving DecidableEq, Repr

/-- Program points of `enqueue`. -/
inductive EnqueuePc
  | idle
  /-- `tail_.exchange(new_node)` -/
  | exchange (new_node : Nat)
  /-- `old_tail->next_ = new_node` or `head_.store(new_node)` -/
  | link (old_tail : Option Nat) (new_node : Nat)
  deriving DecidableEq, Repr

/-- Program points of `runableQueue.concatenate(newQueue)` and `runableQueue.dequeue`. -/
inductive ConsumerPc (P α : Type*)
  | idle
  /-- `concatenate`: `tail_.exchange(otherHead)` -/
  | concatTail (otherHead : Nat)
  /-- `concatenate`: `prevTail->next_ = otherHead` or `head_.store(otherHead)` -/
  | concatLink (otherHead : Nat) (prevTail : Option Nat)
  /-- `concatenate`: `other.tail_.exchange(nullptr)` -/
  | concatSteal
  /-- `concatenate`: `tail_.store(..)` -/
  | concatStore (otherTail : Option Nat)
  /-- `dequeue`: read `old_head->next_` -/
  | next (old_head : Nat)
  /-- `dequeue`: `head_.compare_exchange_weak(old_head, next)` -/
  | cas (old_head : Nat) (next : Option Nat)
  /-- `dequeue`: `value = old_head->data_` -/
  | data (old_head : Nat)
  /-- `dequeue`: `if (!old_head->next_)` -/
  | test (old_head : Nat) (value : Option P × α)
  /-- `dequeue`: `tail_.exchange(nullptr)` of an emptied queue -/
  | clear (old_head : Nat) (value : Option P × α)
  /-- `dequeue`: `delete old_head; return true;` -/
  | delete (old_head : Nat) (value : Option P × α)
  /-- `dequeue`: `tail_.exchange(nullptr); return false;` -/
  | empty
  deriving DecidableEq, Repr

/-- The queues and their threads; thread `none` is the consumer. -/
structure State (P α : Type*) where
  heap : Nat → Option (Node P α)
  /-- the next address of `new` -/
  fresh : Nat
  newQueue : Queue
  runableQueue : Queue
  enqueuing : Option P → EnqueuePc
  consumer : ConsumerPc P α
  /-- the values that have been put into a queue, each with its thread, in that order -/
  enqueued : List (Option P × α)
  /-- the values that `dequeue` has returned -/
  dequeued : List (Option P × α)
  /-- a freed node has been read, written or freed -/
  dangling : Bool

/-- The steps of the threads. -/
inductive Action (P α : Type*)
  /-- a thread calls `enqueue`: `new Node(value)` -/
  | enqueue (o : Option P) (value : α)
  /-- the next step of the `enqueue` of a thread -/
  | run (o : Option P)
  /-- the consumer calls `concatenate`: `other.head_.exchange(nullptr)` -/
  | concatenate
  /-- the consumer calls `dequeue`: `head_.load` -/
  | dequeue
  /-- the next step of the consumer's `concatenate` or `dequeue`; a compare-exchange fails
      spuriously unless `strong` -/
  | consume (strong : Bool)
  deriving DecidableEq, Repr

variable {P α : Type*}

namespace State

/-- The queue that a thread enqueues into. -/
def queue (s : State P α) : Option P → Queue
  | none => s.runableQueue
  | some _ => s.newQueue

/-- Replace the queue that a thread enqueues into. -/
def setQueue (s : State P α) : Option P → Queue → State P α
  | none, q => { s with runableQueue := q }
  | some _, q => { s with newQueue := q }

/-- Write `node->next_`. -/
def writeNext (s : State P α) (x y : Nat) : State P α :=
  match s.heap x with
  | none => { s with dangling := true }
  | some node => { s with heap := Function.update s.heap x (some { node with next_ := some y }) }

/-- Read `node->next_`; a freed node reads as null. -/
def next (s : State P α) (x : Nat) : Option Nat := (s.heap x).bind Node.next_

/-- Record an access to a node. -/
def touch (s : State P α) (x : Nat) : State P α :=
  match s.heap x with
  | none => { s with dangling := true }
  | some _ => s

end State

/-- A thread's value in a node. -/
def Node.item (node : Node P α) : Option P × α := (node.owner, node.data_)

section
variable [DecidableEq P]

/-- The next step of `enqueue` in a thread. -/
def enqueueStep (s : State P α) (o : Option P) : EnqueuePc → Option (State P α)
  | .idle => none
  -- from here on the value counts as enqueued
  | .exchange new_node => some { s.setQueue o { s.queue o with tail_ := some new_node } with
      enqueuing := Function.update s.enqueuing o (.link (s.queue o).tail_ new_node)
      enqueued := s.enqueued ++ ((s.heap new_node).map Node.item).toList }
  -- `if (old_tail)`
  | .link (some old_tail) new_node => some { s.writeNext old_tail new_node with
      enqueuing := Function.update s.enqueuing o .idle }
  | .link none new_node => some { s.setQueue o { s.queue o with head_ := some new_node } with
      enqueuing := Function.update s.enqueuing o .idle }

/-- The next step of the consumer's call. -/
def consumerStep (s : State P α) (strong : Bool) : ConsumerPc P α → Option (State P α)
  | .idle => none
  | .concatTail otherHead => some { s with
      runableQueue := { s.runableQueue with tail_ := some otherHead }
      consumer := .concatLink otherHead s.runableQueue.tail_ }
  -- `if (prevTail != nullptr)`
  | .concatLink otherHead (some prevTail) =>
    some { s.writeNext prevTail otherHead with consumer := .concatSteal }
  | .concatLink otherHead none => some { s with
      runableQueue := { s.runableQueue with head_ := some otherHead }
      consumer := .concatSteal }
  | .concatSteal => some { s with
      newQueue := { s.newQueue with tail_ := none }
      consumer := .concatStore s.newQueue.tail_ }
  | .concatStore otherTail => some { s with
      runableQueue := { s.runableQueue with tail_ := otherTail }
      consumer := .idle }
  | .next old_head => some { s.touch old_head with consumer := .cas old_head (s.next old_head) }
  | .cas old_head next =>
    -- a compare-exchange that fails loads the head again, and the loop reads its `next_`
    if strong && s.runableQueue.head_ = some old_head then some { s with
      runableQueue := { s.runableQueue with head_ := next }
      consumer := .data old_head }
    else some { s with
      consumer := match s.runableQueue.head_ with
        | some old_head => .next old_head
        | none => .empty }
  | .data old_head =>
    match s.heap old_head with
    | some node => some { s with consumer := .test old_head node.item }
    -- a freed node has no value to return
    | none => some { s with dangling := true, consumer := .empty }
  | .test old_head value => some { s.touch old_head with
      consumer := match s.next old_head with
        | none => .clear old_head value
        | some _ => .delete old_head value }
  | .clear old_head value => some { s with
      runableQueue := { s.runableQueue with tail_ := none }
      consumer := .delete old_head value }
  | .delete old_head value => some { s.touch old_head with
      heap := Function.update s.heap old_head none
      dequeued := s.dequeued ++ [value]
      consumer := .idle }
  | .empty => some { s with
      runableQueue := { s.runableQueue with tail_ := none }
      consumer := .idle }

/-- One step of the system. -/
def step (s : State P α) : Action P α → Option (State P α)
  | .enqueue o value =>
    -- the consumer calls `enqueue` on `runableQueue` between its other calls
    if s.enqueuing o = .idle ∧ (o = none → s.consumer matches .idle) then some { s with
      heap := Function.update s.heap s.fresh (some ⟨o, value, none⟩)
      fresh := s.fresh + 1
      enqueuing := Function.update s.enqueuing o (.exchange s.fresh) }
    else none
  | .run o => enqueueStep s o (s.enqueuing o)
  | .concatenate =>
    match s.enqueuing none, s.consumer with
    | .idle, .idle => some { s with
        newQueue := { s.newQueue with head_ := none }
        consumer := match s.newQueue.head_ with
          | some otherHead => .concatTail otherHead
          | none => .idle }
    | _, _ => none
  | .dequeue =>
    match s.enqueuing none, s.consumer with
    | .idle, .idle => some { s with
        consumer := match s.runableQueue.head_ with
          | some old_head => .next old_head
          | none => .empty }
    | _, _ => none
  | .consume strong => consumerStep s strong s.consumer

/-- Two new queues. -/
def initial : State P α where
  heap := fun _ => none
  fresh := 0
  newQueue := ⟨none, none⟩
  runableQueue := ⟨none, none⟩
  enqueuing := fun _ => .idle
  consumer := .idle
  enqueued := []
  dequeued := []
  dangling := false

/-- The queue system. -/
def system (P α : Type*) [DecidableEq P] : LTS (State P α) (Action P α) where
  init := fun s => s = initial
  step := step

end

/-! ### The property -/

/-- The nodes that following `next_` from a pointer visits, at most `fuel`. -/
def State.walk (s : State P α) : Nat → Option Nat → List Nat
  | 0, _ => []
  | _, none => []
  | fuel + 1, some x => x :: walk s fuel (s.next x)

/-- Walking along a chain to null visits its nodes. -/
theorem State.walk_eq {s : State P α} {l : List Nat} {p : Option Nat} (h : Chain s.next p l none)
    {fuel : Nat}
    (hf : l.length ≤ fuel) : s.walk fuel p = l := by
  induction l generalizing p fuel with
  | nil =>
    obtain rfl : p = none := h
    cases fuel <;> rfl
  | cons x l ih =>
    obtain ⟨rfl, h⟩ := h
    obtain ⟨fuel, rfl⟩ := Nat.exists_eq_add_of_le' (Nat.le_trans (Nat.le_add_left 1 _) hf)
    rw [State.walk, ih h (by simpa using hf)]

/-- The values reachable from the `head_` of the two queues. -/
def State.reachable (s : State P α) : List α :=
  (s.walk s.fresh s.runableQueue.head_ ++ s.walk s.fresh s.newQueue.head_).filterMap fun x =>
    (s.heap x).map Node.data_

/-- No call is half-way. -/
def State.Quiet (s : State P α) : Prop := s.consumer = .idle ∧ ∀ o, s.enqueuing o = .idle

/-- What the two queues are for. -/
structure Kept [DecidableEq P] (s : State P α) : Prop where
  /-- No freed node is used. -/
  dangling : s.dangling = false
  /-- Nothing is lost and nothing comes out twice. -/
  values : s.Quiet →
    (s.enqueued.map Prod.snd).Perm (s.dequeued.map Prod.snd ++ s.reachable)
  /-- The values of one thread leave in their order. -/
  order : ∀ o, (s.dequeued.filter fun e => e.1 = o) <+: (s.enqueued.filter fun e => e.1 = o)

/-- A producer has enqueued one value and exchanged the tail for a second one when the consumer
    takes both nodes over and dequeues the first; then the producer links the second node to it. -/
def overtaken : List (Action Unit Nat) :=
  [.enqueue (some ()) 1, .run (some ()), .run (some ()), .enqueue (some ()) 2, .run (some ()),
    .concatenate, .consume true, .consume true, .consume true, .consume true,
    .dequeue, .consume true, .consume true, .consume true, .consume true, .consume true,
    .consume true, .run (some ())]

/-- **A lost node.** After `overtaken` all calls have returned, the producer has written to a freed
    node, and its second value is in no queue. -/
theorem dequeue_loses_node :
    ¬ ∀ s : State Unit Nat, (system Unit Nat).Reachable s → Kept s := by
  intro h
  have hr : (system Unit Nat).exec initial overtaken = some _ := rfl
  cases (h _ (LTS.reachable_of_exec rfl hr)).dangling

/-- The node whose `next_` a thread is about to write. -/
def EnqueuePc.target : EnqueuePc → Option Nat
  | .link old_tail _ => old_tail
  | _ => none

/-- The condition on a step: when `dequeue` replaces the head by a null that it has read from
    `old_head->next_`, this pointer is still null and no thread is about to write it. -/
def Settled (s : State P α) (a : Action P α) : Prop :=
  ∀ old_head, a = .consume true → s.consumer = .cas old_head none →
    s.runableQueue.head_ = some old_head →
    s.next old_head = none ∧ ∀ o, (s.enqueuing o).target ≠ some old_head

instance [Fintype P] [DecidableEq P] [DecidableEq α] (s : State P α) (a : Action P α) :
    Decidable (Settled s a) :=
  match h : s.runableQueue.head_ with
  | none => .isTrue fun x _ _ hx => by rw [h] at hx; cases hx
  | some y =>
    decidable_of_iff (a = Action.consume true → s.consumer = ConsumerPc.cas y none →
        s.next y = none ∧ ∀ o, (s.enqueuing o).target ≠ some y)
      ⟨fun hs x ha hc hx => by
        obtain rfl : y = x := by rw [h] at hx; exact Option.some.inj hx
        exact hs ha hc, fun hs ha hc => hs y ha hc h⟩

end LimWebserver.LFQueue
