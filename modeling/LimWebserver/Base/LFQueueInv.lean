import LimWebserver.Base.LFQueue

namespace LimWebserver.LFQueue

open LimWebserver.Lib

/-!
# Base — what the queues of `LFQueue` hold between two steps

The nodes of `runableQueue` form a list `R` and those of `newQueue` a list `N`; some links of
either list are still to be written.

* `Nodes` — the nodes of the two lists and the one that `dequeue` holds, and the accounting;
* `Links` — which links are written and which are pending;
* `NewQueue`, `RunQueue` — the ends of the two queues, at each program point of the consumer;
* `Inv` — all of it, and how the steps that write to memory change its parts.
-/

variable {P α : Type*}

/-! ### Reading the memory -/

namespace State

/-- The value in a node, with its thread. -/
def item (s : State P α) (x : Nat) : Option (Option P × α) := (s.heap x).map Node.item

/-- The values in the nodes of a list. -/
def items (s : State P α) (l : List Nat) : List (Option P × α) := l.filterMap s.item

variable {s : State P α} {x y : Nat} {o : Option P} {v : α}

theorem heap_eq_none (h : s.item x = none) : s.heap x = none := Option.map_eq_none_iff.mp h

theorem exists_heap (h : s.item x ≠ none) : ∃ node, s.heap x = some node :=
  Option.ne_none_iff_exists'.mp fun hn => h (by rw [item, hn]; rfl)

theorem next_eq_none (h : s.item x = none) : s.next x = none := by
  rw [next, heap_eq_none h]; rfl

/-- Touching a node that is not freed does nothing. -/
theorem touch_eq (h : s.item x ≠ none) : s.touch x = s := by
  obtain ⟨node, hn⟩ := exists_heap h
  rw [touch, hn]

/-- Writing a link writes only memory. -/
theorem writeNext_eq (h : s.item x ≠ none) :
    ∃ heap', s.writeNext x y = { s with heap := heap' } ∧
      (s.writeNext x y).item = s.item ∧
      (s.writeNext x y).next = Function.update s.next x (some y) := by
  obtain ⟨node, hn⟩ := exists_heap h
  have hw : s.writeNext x y =
      { s with heap := Function.update s.heap x (some { node with next_ := some y }) } := by
    rw [writeNext, hn]
  -- a node's value is kept, and of the links only that of `x` changes
  refine ⟨_, hw, funext fun z => ?_, funext fun z => ?_⟩
  all_goals
    rw [hw]
    rcases eq_or_ne z x with rfl | hz
  · simp [item, hn, Node.item]
  · simp [item, Function.update_of_ne hz]
  · simp [next]
  · simp [next, Function.update_of_ne hz]

/-- A new node is read as it was built. -/
theorem item_alloc {s' : State P α}
    (h : s'.heap = Function.update s.heap x (some ⟨o, v, none⟩)) :
    s'.item = Function.update s.item x (some (o, v)) := by
  funext z
  rw [item, h]
  rcases eq_or_ne z x with rfl | hz
  · simp [Node.item]
  · simp [item, Function.update_of_ne hz]

/-- Building a node changes no link. -/
theorem next_alloc {s' : State P α}
    (h : s'.heap = Function.update s.heap x (some ⟨o, v, none⟩)) (hx : s.item x = none) :
    s'.next = s.next := by
  funext z
  rw [next, h]
  rcases eq_or_ne z x with rfl | hz
  · simp [next_eq_none hx]
  · simp [next, Function.update_of_ne hz]

/-- A freed node reads as nothing. -/
theorem item_free {s' : State P α} (h : s'.heap = Function.update s.heap x none) :
    s'.item = Function.update s.item x none := by
  funext z
  rw [item, h]
  rcases eq_or_ne z x with rfl | hz
  · simp
  · simp [item, Function.update_of_ne hz]

/-- Freeing a node changes no other link. -/
theorem next_free {s' : State P α} (h : s'.heap = Function.update s.heap x none) (hy : y ≠ x) :
    s'.next y = s.next y := by
  rw [next, h, Function.update_of_ne hy]; rfl

theorem items_congr {s' : State P α} {l : List Nat} (h : ∀ x ∈ l, s'.item x = s.item x) :
    s'.items l = s.items l :=
  List.filterMap_congr h

/-- The values alone. -/
theorem items_snd (l : List Nat) : (s.items l).map Prod.snd =
    l.filterMap fun x => (s.heap x).map Node.data_ := by
  rw [items, List.map_filterMap]
  apply List.filterMap_congr
  intro x _
  rw [item, Option.map_map]
  rfl

/-- The addresses bound the length of a list of nodes. -/
theorem length_le_fresh {l : List Nat} (hnd : l.Nodup) (h : ∀ x ∈ l, x < s.fresh) :
    l.length ≤ s.fresh := by
  have hsub : l ⊆ List.range s.fresh := fun x hx => List.mem_range.mpr (h x hx)
  simpa using (List.subperm_of_subset hnd hsub).length_le

theorem items_append (l m : List Nat) : s.items (l ++ m) = s.items l ++ s.items m :=
  List.filterMap_append

end State

/-! ### The parts of the invariant -/

/-- The nodes in the queues and in the hand of `dequeue`, and where their values are. -/
structure Nodes [DecidableEq P] (s : State P α) (H : List Nat) : Prop where
  /-- No freed node has been used. -/
  dangling : s.dangling = false
  nodup : H.Nodup
  live : ∀ x ∈ H, s.item x ≠ none
  fresh : ∀ x, s.item x ≠ none → x < s.fresh
  /-- A node that is not in a queue yet. -/
  exchange : ∀ o n, s.enqueuing o = .exchange n →
    n ∉ H ∧ s.next n = none ∧ ∃ v, s.item n = some (o, v)
  /-- A node to be linked belongs to the thread that links it. -/
  owner : ∀ o p n, s.enqueuing o = .link p n → ∃ v, s.item n = some (o, v)
  /-- What a thread has enqueued is what has been dequeued of it and, behind that, what waits. -/
  account : ∀ o, (s.enqueued.filter fun e => e.1 = o) =
    (s.dequeued ++ s.items H).filter fun e => e.1 = o

/-- `y` comes right behind `x` in one of the two queues. -/
def Adj (R N : List Nat) (x y : Nat) : Prop := Adjacent R x y ∨ Adjacent N x y

/-- A link between neighbours is written, or its thread is about to write it. -/
structure Links (s : State P α) (E : Nat → Nat → Prop) : Prop where
  pending : ∀ o x n, s.enqueuing o = .link (some x) n → s.next x = none ∧ E x n
  succ : ∀ x n, E x n →
    s.next x = some n ∨ s.next x = none ∧ ∃ o, s.enqueuing o = .link (some x) n

/-- The head of `newQueue`, before and while `concatenate` has it. -/
def NewHead (s : State P α) (N : List Nat) : Bool → Prop
  -- the nodes are still in `newQueue`, but only `otherHead` leads to them
  | true => s.newQueue.head_ = none ∧ N ≠ [] ∧ ∀ p n, s.enqueuing (some p) ≠ .link none n
  | false =>
    (∀ p n, s.enqueuing (some p) = .link none n →
      s.newQueue.head_ = none ∧ N.head? = some n) ∧
    (s.newQueue.head_ = N.head? ∨
      s.newQueue.head_ = none ∧ ∃ p n, s.enqueuing (some p) = .link none n)

/-- `newQueue` and its list of nodes. -/
structure NewQueue (s : State P α) (N : List Nat) (stolen : Bool) : Prop where
  tail : s.newQueue.tail_ = N.getLast?
  last : ∀ x, N.getLast? = some x → s.next x = none
  /-- Only producers enqueue here. -/
  producer : ∀ x ∈ N, ∀ v, s.item x ≠ some (none, v)
  head : NewHead s N stolen

/-- Between the first and the last step on `other` of `concatenate`. -/
def ConsumerPc.stolen : ConsumerPc P α → Bool
  | .concatTail _ => true
  | .concatLink _ _ => true
  | .concatSteal => true
  | _ => false

/-- The node that `dequeue` has taken out and not yet freed. -/
def ConsumerPc.held : ConsumerPc P α → List Nat
  | .data old_head => [old_head]
  | .test old_head _ => [old_head]
  | .clear old_head _ => [old_head]
  | .delete old_head _ => [old_head]
  | _ => []

/-- The last node of `runableQueue` has no link. -/
def Last (s : State P α) (R : List Nat) : Prop := ∀ x, R.getLast? = some x → s.next x = none

/-- `runableQueue` and its list of nodes. -/
def RunQueue (s : State P α) (R N : List Nat) : ConsumerPc P α → Prop
  | .idle => s.runableQueue.tail_ = R.getLast? ∧ Last s R ∧
    (∀ n, s.enqueuing none = .link none n → s.runableQueue.head_ = none ∧ R.head? = some n) ∧
    (s.runableQueue.head_ = R.head? ∨
      s.runableQueue.head_ = none ∧ ∃ n, s.enqueuing none = .link none n)
  | .concatTail otherHead => s.runableQueue = ⟨R.head?, R.getLast?⟩ ∧ Last s R ∧
    N.head? = some otherHead
  | .concatLink otherHead prevTail => s.runableQueue.head_ = R.head? ∧ prevTail = R.getLast? ∧
    Last s R ∧ N.head? = some otherHead
  -- the tail is `otherHead`, which nobody reads before the store
  | .concatSteal => s.runableQueue.head_ = (R ++ N).head? ∧
    ∀ x, R.getLast? = some x → s.next x = N.head?
  | .concatStore otherTail => s.runableQueue.head_ = R.head? ∧ otherTail = R.getLast? ∧ Last s R
  | .next old_head => s.runableQueue = ⟨some old_head, R.getLast?⟩ ∧ Last s R ∧
    R.head? = some old_head
  -- a null that has been read may be outdated, a node may not
  | .cas old_head next => s.runableQueue = ⟨some old_head, R.getLast?⟩ ∧ Last s R ∧
    R.head? = some old_head ∧ ∀ y, next = some y → s.next old_head = some y
  | .data old_head => s.runableQueue = ⟨R.head?, (old_head :: R).getLast?⟩ ∧ Last s R ∧
    s.next old_head = R.head?
  | .test old_head value => s.runableQueue = ⟨R.head?, (old_head :: R).getLast?⟩ ∧ Last s R ∧
    s.next old_head = R.head? ∧ s.item old_head = some value
  | .clear old_head value => s.runableQueue.head_ = none ∧ R = [] ∧ s.item old_head = some value
  | .delete old_head value => s.runableQueue = ⟨R.head?, R.getLast?⟩ ∧ Last s R ∧
    s.item old_head = some value
  | .empty => s.runableQueue.head_ = none ∧ R = []

/-- **The invariant**, for a list of nodes in each queue. -/
structure Inv [DecidableEq P] (s : State P α) (R N : List Nat) : Prop where
  nodes : Nodes s (s.consumer.held ++ R ++ N)
  links : Links s (Adj R N)
  newQueue : NewQueue s N s.consumer.stolen
  runQueue : RunQueue s R N s.consumer
  /-- The consumer does one thing at a time. -/
  busy : s.consumer ≠ .idle → s.enqueuing none = .idle

/-! ### Frames -/

section
variable {s s' : State P α} {R N N' : List Nat} {x y n : Nat} {o : Option P} {pc : ConsumerPc P α}

/-- `RunQueue` does not depend on what producers do elsewhere. -/
theorem RunQueue.frame (h : RunQueue s R N pc) (hq : s'.runableQueue = s.runableQueue)
    (hnone : s'.enqueuing none = s.enqueuing none)
    (hlast : ∀ x, R.getLast? = some x → s'.next x = s.next x)
    (hnext : ∀ x y, s.next x = some y → s'.next x = some y)
    (hheld : ∀ x ∈ pc.held, s'.next x = s.next x ∧ s'.item x = s.item x)
    (hN : pc.stolen = true → N'.head? = N.head?) : RunQueue s' R N' pc := by
  have hl : Last s R → Last s' R := fun hl x hx => (hlast x hx).trans (hl x hx)
  cases pc with
  | idle =>
    obtain ⟨h1, h2, h3, h4⟩ := h
    refine ⟨hq ▸ h1, hl h2, ?_, ?_⟩ <;> rw [hq, hnone]
    exacts [h3, h4]
  | concatTail otherHead =>
    obtain ⟨h1, h2, h3⟩ := h
    exact ⟨hq ▸ h1, hl h2, (hN rfl).trans h3⟩
  | concatLink otherHead prevTail =>
    obtain ⟨h1, h2, h3, h4⟩ := h
    exact ⟨hq ▸ h1, h2, hl h3, (hN rfl).trans h4⟩
  | concatSteal =>
    obtain ⟨h1, h2⟩ := h
    refine ⟨?_, fun x hx => ?_⟩
    · rw [hq, h1, List.head?_append, List.head?_append, hN rfl]
    · rw [hlast x hx, h2 x hx, hN rfl]
  | concatStore otherTail =>
    obtain ⟨h1, h2, h3⟩ := h
    exact ⟨hq ▸ h1, h2, hl h3⟩
  | next old_head =>
    obtain ⟨h1, h2, h3⟩ := h
    exact ⟨hq ▸ h1, hl h2, h3⟩
  | cas old_head next =>
    obtain ⟨h1, h2, h3, h4⟩ := h
    exact ⟨hq ▸ h1, hl h2, h3, fun y hy => hnext _ _ (h4 y hy)⟩
  | data old_head =>
    obtain ⟨h1, h2, h3⟩ := h
    exact ⟨hq ▸ h1, hl h2, (hheld old_head (by simp [ConsumerPc.held])).1.trans h3⟩
  | test old_head value =>
    obtain ⟨h1, h2, h3, h4⟩ := h
    have hh := hheld old_head (by simp [ConsumerPc.held])
    exact ⟨hq ▸ h1, hl h2, hh.1.trans h3, hh.2.trans h4⟩
  | clear old_head value =>
    obtain ⟨h1, h2, h3⟩ := h
    exact ⟨hq ▸ h1, h2, (hheld old_head (by simp [ConsumerPc.held])).2.trans h3⟩
  | delete old_head value =>
    obtain ⟨h1, h2, h3⟩ := h
    exact ⟨hq ▸ h1, hl h2, (hheld old_head (by simp [ConsumerPc.held])).2.trans h3⟩
  | empty => exact ⟨hq ▸ h.1, h.2⟩

/-- `NewQueue` does not depend on what the consumer does elsewhere. -/
theorem NewQueue.frame {stolen : Bool} (h : NewQueue s N stolen)
    (hq : s'.newQueue = s.newQueue)
    (hsome : ∀ p, s'.enqueuing (some p) = s.enqueuing (some p))
    (hlast : ∀ x, N.getLast? = some x → s'.next x = s.next x)
    (hitem : ∀ x ∈ N, s'.item x = s.item x) : NewQueue s' N stolen := by
  refine ⟨hq ▸ h.tail, fun x hx => (hlast x hx).trans (h.last x hx), fun x hx => ?_, ?_⟩
  · rw [hitem x hx]
    exact h.producer x hx
  · -- the head speaks only of the queue and of the producers
    have hh := h.head
    cases stolen <;> simp only [NewHead] at hh ⊢ <;> simp only [hsome, hq] <;> exact hh

/-- `Links` depends on the links of the queues and on who is about to write one. -/
theorem Links.frame {E : Nat → Nat → Prop} (h : Links s E)
    (hpc : ∀ o x n, s'.enqueuing o = .link (some x) n ↔ s.enqueuing o = .link (some x) n)
    (hnext : ∀ x n, E x n → s'.next x = s.next x) : Links s' E := by
  refine ⟨fun o x n ho => ?_, fun x n he => ?_⟩
  · obtain ⟨hx, he⟩ := h.pending o x n ((hpc o x n).mp ho)
    exact ⟨(hnext x n he).trans hx, he⟩
  · rw [hnext x n he]
    simp only [hpc]
    exact h.succ x n he

/-! ### Neighbours in the two queues -/

theorem adj_mem_left (h : Adj R N x y) : x ∈ R ++ N := by
  rcases h with h | h
  · exact List.mem_append_left _ h.mem_left
  · exact List.mem_append_right _ h.mem_left

theorem adj_mem_right (h : Adj R N x y) : y ∈ R ++ N := by
  rcases h with h | h
  · exact List.mem_append_left _ h.mem_right
  · exact List.mem_append_right _ h.mem_right

theorem adj_unique (hnd : (R ++ N).Nodup) (h : Adj R N x y) (h' : Adj R N x n) : y = n := by
  obtain ⟨hR, hN, hd⟩ := List.nodup_append.mp hnd
  rcases h with h | h <;> rcases h' with h' | h'
  · exact h.unique h' hR
  · exact absurd rfl (hd x h.mem_left x h'.mem_left)
  · exact absurd rfl (hd x h'.mem_left x h.mem_left)
  · exact h.unique h' hN

/-- The last node of `runableQueue` has none behind it. -/
theorem adj_ne_last_left (hnd : (R ++ N).Nodup) (h : Adj R N x y) : R.getLast? ≠ some x := by
  obtain ⟨hR, -, hd⟩ := List.nodup_append.mp hnd
  rcases h with h | h
  · exact h.ne_getLast hR
  · exact fun hx => hd x (List.mem_of_getLast? hx) x h.mem_left rfl

/-- Nor has the last node of `newQueue`. -/
theorem adj_ne_last_right (hnd : (R ++ N).Nodup) (h : Adj R N x y) : N.getLast? ≠ some x := by
  obtain ⟨-, hN, hd⟩ := List.nodup_append.mp hnd
  rcases h with h | h
  · exact fun hx => hd x h.mem_left x (List.mem_of_getLast? hx) rfl
  · exact h.ne_getLast hN

theorem adj_snoc_left : Adj (R ++ [n]) N x y ↔ Adj R N x y ∨ R.getLast? = some x ∧ y = n := by
  simp only [Adj, adjacent_append_iff, adjacent_cons_iff, adjacent_nil, List.head?_cons,
    List.head?_nil, reduceCtorEq, and_false, or_false, false_or, Option.some.injEq, eq_comm]
  tauto

theorem adj_snoc_right : Adj R (N ++ [n]) x y ↔ Adj R N x y ∨ N.getLast? = some x ∧ y = n := by
  simp only [Adj, adjacent_append_iff, adjacent_cons_iff, adjacent_nil, List.head?_cons,
    List.head?_nil, reduceCtorEq, and_false, or_false, false_or, Option.some.injEq, eq_comm]
  tauto

/-- When `concatenate` has put one queue behind the other. -/
theorem adj_concat :
    Adj (R ++ N) [] x y ↔ Adj R N x y ∨ R.getLast? = some x ∧ N.head? = some y := by
  simp only [Adj, adjacent_append_iff, adjacent_nil, or_false]
  tauto

/-- When `dequeue` has taken the first node out. -/
theorem adj_cons : Adj (n :: R) N x y ↔ Adj R N x y ∨ n = x ∧ R.head? = some y := by
  simp only [Adj, adjacent_cons_iff]
  tauto

/-- The link of the first node leads to the second one as soon as it is written. -/
theorem Links.next_head (h : Links s (Adj (x :: R) N)) (hl : Last s (x :: R))
    (hset : s.next x = none → ∀ o, (s.enqueuing o).target ≠ some x) :
    s.next x = R.head? := by
  cases R with
  | nil => exact hl x rfl
  | cons y R =>
    rcases h.succ x y (.inl (.inl ⟨rfl, rfl⟩)) with hy | ⟨hn, o, ho⟩
    · exact hy
    · exact absurd (by rw [ho]; rfl) (hset hn o)

end

end LimWebserver.LFQueue
