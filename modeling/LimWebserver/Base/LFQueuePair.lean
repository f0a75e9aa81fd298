import LimWebserver.Base.LFQueueInv

namespace LimWebserver.LFQueuePair

open LimWebserver.Lib LimWebserver.LFQueue

/-!
# Base — one `LFQueue` between a producer and a consumer

One thread calls `enqueue` and another one `dequeue` on the same queue, at any time: the calls
overlap step by step, and the consumer also polls the queue while it is empty.  The steps are those
of `LFQueue`; the queue is `runableQueue`, its producer is thread `none`, and `newQueue` is unused.

* `InOrder` — what the two threads expect of the queue;
* `poll_loses_value` — a poll of the empty queue that overlaps an `enqueue`;
* `Apart` — the condition on the steps that keeps the two calls out of each other's way;
* `Inv`, `apart_inOrder` — a run of such steps loses nothing.
-/

/-- The steps of the two threads. -/
inductive Action (α : Type*)
  /-- the producer calls `enqueue`: `new Node(value)` -/
  | enqueue (value : α)
  /-- the next step of `enqueue` -/
  | produce
  /-- the consumer calls `dequeue`: `head_.load` -/
  | dequeue
  /-- the next step of `dequeue`; a compare-exchange fails spuriously unless `strong` -/
  | consume (strong : Bool)
  deriving DecidableEq, Repr

variable {α : Type*}

/-- One step of the two threads. -/
def step (s : State Empty α) : Action α → Option (State Empty α)
  | .enqueue value =>
    if s.enqueuing none = .idle then some { s with
      heap := Function.update s.heap s.fresh (some ⟨none, value, none⟩)
      fresh := s.fresh + 1
      enqueuing := Function.update s.enqueuing none (.exchange s.fresh) }
    else none
  | .produce => enqueueStep s none (s.enqueuing none)
  | .dequeue =>
    match s.consumer with
    | .idle => some { s with
        consumer := match s.runableQueue.head_ with
          | some old_head => .next old_head
          | none => .empty }
    | _ => none
  | .consume strong => consumerStep s strong s.consumer

/-- The queue and its two threads. -/
def system (α : Type*) : LTS (State Empty α) (Action α) where
  init := fun s => s = initial
  step := step

/-! ### The property -/

/-- What the two threads expect of the queue. -/
structure InOrder (s : State Empty α) : Prop where
  /-- The values come out in the order in which they have been enqueued. -/
  order : s.dequeued.map Prod.snd <+: s.enqueued.map Prod.snd
  /-- Between two calls the others are in the queue. -/
  values : s.Quiet → s.enqueued.map Prod.snd = s.dequeued.map Prod.snd ++ s.reachable
  /-- No freed node is used. -/
  dangling : s.dangling = false

/-- The consumer polls the empty queue between the exchange of the tail and the store of the head,
    and resets the tail; the next value is then stored over the first one. -/
def polled : List (Action Nat) :=
  [.enqueue 1, .produce, .dequeue, .consume true, .produce, .enqueue 2, .produce, .produce]

/-- **A lost value.** After `polled` both calls have returned, nothing has been dequeued, and the
    first value is not in the queue. -/
theorem poll_loses_value : ∃ s : State Empty Nat, (system Nat).Reachable s ∧ s.Quiet ∧
    s.dequeued = [] ∧ s.enqueued = [(none, 1), (none, 2)] ∧ s.reachable = [2] ∧ ¬ InOrder s := by
  have hr : (system Nat).exec initial polled = some _ := rfl
  refine ⟨_, LTS.reachable_of_exec rfl hr, ?_, rfl, rfl, by decide, fun h => ?_⟩
  · exact ⟨rfl, by decide⟩
  · exact absurd (h.values ⟨rfl, by decide⟩) (by decide)

/-! ### The condition -/

/-- What `enqueue` does with the old tail is safe: it stores the head of a queue that has none, and
    it links a new node to one that `dequeue` has not taken out. -/
def LinkSafe (s : State Empty α) : EnqueuePc → Prop
  | .link none _ => s.runableQueue.head_ = none
  | .link (some old_tail) _ => (s.heap old_tail).isSome ∧ old_tail ∉ s.consumer.held
  | _ => True

/-- When `dequeue` takes the head out, what it has read from `old_head->next_` is still there. -/
def TakeSafe (s : State Empty α) : ConsumerPc Empty α → Prop
  | .cas old_head next => s.runableQueue.head_ = some old_head → next = s.next old_head
  | _ => True

/-- The condition on a step. -/
def Apart (s : State Empty α) : Action α → Prop
  | .produce => LinkSafe s (s.enqueuing none)
  | .consume true => TakeSafe s s.consumer
  | _ => True

instance (s : State Empty α) : (pc : EnqueuePc) → Decidable (LinkSafe s pc)
  | .link none _ => inferInstanceAs (Decidable (_ = _))
  | .link (some _) _ => inferInstanceAs (Decidable (_ ∧ _))
  | .idle | .exchange _ => .isTrue trivial

instance (s : State Empty α) : (pc : ConsumerPc Empty α) → Decidable (TakeSafe s pc)
  | .cas _ _ => inferInstanceAs (Decidable (_ → _))
  | .idle | .concatTail _ | .concatLink _ _ | .concatSteal | .concatStore _ | .next _ | .data _
  | .test _ _ | .clear _ _ | .delete _ _ | .empty => .isTrue trivial

instance (s : State Empty α) : (a : Action α) → Decidable (Apart s a)
  | .produce => inferInstanceAs (Decidable (LinkSafe s _))
  | .consume true => inferInstanceAs (Decidable (TakeSafe s _))
  | .consume false | .enqueue _ | .dequeue => .isTrue trivial

/-! ### The invariant -/

/-- The node of a running `enqueue`. -/
def newNode : EnqueuePc → List Nat
  | .idle => []
  | .exchange new_node => [new_node]
  | .link _ new_node => [new_node]

/-- The node that is the tail already and that nothing leads to yet. -/
def unlinked : EnqueuePc → List Nat
  | .idle => []
  | .exchange _ => []
  | .link _ new_node => [new_node]

/-- The node that `dequeue` has taken out, while the tail may still be this node. -/
def taken : ConsumerPc Empty α → List Nat
  | .data old_head => [old_head]
  | .test old_head _ => [old_head]
  | .clear old_head _ => [old_head]
  | _ => []

/-- What `dequeue` knows at its program points. -/
def Hand (s : State Empty α) : ConsumerPc Empty α → Prop
  | .next old_head => s.runableQueue.head_ = some old_head
  -- a null that has been read may be outdated, a node may not
  | .cas old_head next => s.runableQueue.head_ = some old_head ∧
    ∀ y, next = some y → s.next old_head = some y
  | .test old_head value => s.item old_head = some value
  | .clear old_head value => s.item old_head = some value
  | .delete old_head value => s.item old_head = some value
  | .idle | .data _ | .empty => True
  -- nobody calls `concatenate`
  | .concatTail _ | .concatLink _ _ | .concatSteal | .concatStore _ => False

/-- **The invariant**, for the list of nodes that the head leads to and the program points of the
    two threads. -/
structure Inv (s : State Empty α) (L : List Nat) (p : EnqueuePc) (c : ConsumerPc Empty α) :
    Prop where
  chain : Chain s.next s.runableQueue.head_ L none
  nodup : (c.held ++ L ++ newNode p).Nodup
  live : ∀ x ∈ c.held ++ L ++ newNode p, s.item x ≠ none
  fresh : ∀ x, s.item x ≠ none → x < s.fresh
  new : ∀ x ∈ newNode p, s.next x = none
  /-- The tail is the last node, unless it has been reset or is about to be. -/
  tail : ∀ y, s.runableQueue.tail_ = some y →
    (L ++ unlinked p).getLast? = some y ∨ y ∈ taken c ∧ s.next y = none
  /-- An old tail is the last node that the head leads to, unless it has been taken out. -/
  target : ∀ t n, p = .link (some t) n → L.getLast? = some t ∨ t ∈ c.held ∨ s.item t = none
  hand : Hand s c
  /-- What has been enqueued is what has been dequeued and, behind that, what waits. -/
  account : s.enqueued = s.dequeued ++ s.items (c.held ++ L ++ unlinked p)
  newQueue : s.newQueue.head_ = none
  dangling : s.dangling = false

variable {s s' : State Empty α} {L : List Nat} {p : EnqueuePc}
  {c c' : ConsumerPc Empty α} {x n t : Nat} {v : α}

theorem inv_initial : Inv (initial : State Empty α) [] .idle .idle where
  chain := rfl
  nodup := List.nodup_nil
  live x hx := by cases hx
  fresh x hx := absurd rfl hx
  new x hx := by cases hx
  tail y hy := by cases hy
  target t n hn := by cases hn
  hand := trivial
  account := rfl
  newQueue := rfl
  dangling := rfl

/-- `Hand` depends on the head, on the links that have been read, and on the node in the hand. -/
theorem Hand.frame (h : Hand s c) (hhead : s.runableQueue.head_ ≠ none →
      s'.runableQueue.head_ = s.runableQueue.head_)
    (hnext : ∀ x y, s.next x = some y → s'.next x = some y)
    (hitem : ∀ x ∈ c.held, s'.item x = s.item x) : Hand s' c := by
  cases c with
  | next old_head => exact (hhead (by rw [h]; simp)).trans h
  | cas old_head next =>
    obtain ⟨h1, h2⟩ := h
    exact ⟨(hhead (by rw [h1]; simp)).trans h1, fun y hy => hnext _ _ (h2 y hy)⟩
  | test old_head value => exact (hitem _ (List.mem_singleton_self _)).trans h
  | clear old_head value => exact (hitem _ (List.mem_singleton_self _)).trans h
  | delete old_head value => exact (hitem _ (List.mem_singleton_self _)).trans h
  | idle => trivial
  | data _ => trivial
  | empty => trivial
  | concatTail _ => exact h
  | concatLink _ _ => exact h
  | concatSteal => exact h
  | concatStore _ => exact h

theorem mem_held (hx : x ∈ taken c) : x ∈ c.held := by
  cases c <;> simp_all [taken, ConsumerPc.held]

/-- The last node of the queue has no link. -/
theorem Inv.next_last (h : Inv s L p c) (hx : L.getLast? = some x) : s.next x = none := by
  obtain ⟨l, rfl⟩ := List.getLast?_eq_some_iff.mp hx
  obtain ⟨_, -, -, hn⟩ := Chain.append_iff.mp h.chain
  exact hn

/-! ### Steps of the producer -/

/-- A new node is nowhere yet. -/
theorem Inv.enqueue (h : Inv s L .idle c) : Inv { s with
    heap := Function.update s.heap s.fresh (some ⟨none, v, none⟩)
    fresh := s.fresh + 1
    enqueuing := Function.update s.enqueuing none (.exchange s.fresh) }
      L (.exchange s.fresh) c := by
  have hfresh : s.item s.fresh = none := by
    by_contra hx
    exact Nat.lt_irrefl _ (h.fresh _ hx)
  have hne : ∀ x ∈ c.held ++ L, x ≠ s.fresh := by
    intro x hx
    rintro rfl
    exact h.live _ (List.mem_append_left _ hx) hfresh
  have hitem : ∀ x ∈ c.held ++ L,
      Function.update s.item s.fresh (some (none, v)) x = s.item x :=
    fun x hx => Function.update_of_ne (hne x hx) _ _
  constructor
  case chain =>
    rw [State.next_alloc rfl hfresh]
    exact h.chain
  case nodup =>
    have hnodup := h.nodup
    rw [newNode, List.append_nil] at hnodup
    refine List.nodup_append.mpr ⟨hnodup, List.nodup_singleton _, fun x hx y hy => ?_⟩
    obtain rfl := List.mem_singleton.mp hy
    exact hne x hx
  case live =>
    intro x hx
    rw [State.item_alloc rfl]
    rcases List.mem_append.mp hx with hx | hx
    · rw [hitem x hx]
      exact h.live x (List.mem_append_left _ hx)
    · obtain rfl := List.mem_singleton.mp hx
      simp
  case fresh =>
    intro x hx
    rw [State.item_alloc rfl] at hx
    rcases eq_or_ne x s.fresh with rfl | hxf
    · exact Nat.lt_succ_self _
    · rw [Function.update_of_ne hxf] at hx
      exact Nat.lt_succ_of_lt (h.fresh x hx)
  case new =>
    intro x hx
    obtain rfl := List.mem_singleton.mp hx
    rw [State.next_alloc rfl hfresh]
    exact State.next_eq_none hfresh
  case tail =>
    rw [State.next_alloc rfl hfresh]
    exact h.tail
  case target =>
    intro t n hn
    cases hn
  case hand =>
    refine h.hand.frame (fun _ => rfl) (fun x y hxy => ?_) fun x hx => ?_
    · rw [State.next_alloc rfl hfresh]
      exact hxy
    · rw [State.item_alloc rfl, hitem x (List.mem_append_left _ hx)]
  case account =>
    have haccount := h.account
    rw [unlinked, List.append_nil] at haccount
    rw [unlinked, List.append_nil,
      State.items_congr (s := s) fun x hx => by rw [State.item_alloc rfl, hitem x hx]]
    exact haccount
  case newQueue => exact h.newQueue
  case dangling => exact h.dangling

/-- The new node is the tail, and its value is enqueued. -/
theorem Inv.exchange (h : Inv s L (.exchange n) c) : Inv { s with
    runableQueue := { s.runableQueue with tail_ := some n }
    enqueuing := Function.update s.enqueuing none (.link s.runableQueue.tail_ n)
    enqueued := s.enqueued ++ ((s.heap n).map Node.item).toList }
      L (.link s.runableQueue.tail_ n) c := by
  refine ⟨h.chain, h.nodup, h.live, h.fresh, h.new, fun y hy => .inl ?_, fun t m ht => ?_,
    h.hand.frame (fun _ => rfl) (fun _ _ hxy => hxy) fun _ _ => rfl, ?_, h.newQueue, h.dangling⟩
  · obtain rfl : n = y := Option.some.inj hy
    exact List.getLast?_concat
  · -- the old tail
    obtain ⟨ht, -⟩ : s.runableQueue.tail_ = some t ∧ n = m := by simpa using ht
    rcases h.tail t ht with hl | ⟨hl, -⟩
    · rw [unlinked, List.append_nil] at hl
      exact .inl hl
    · exact .inr (.inl (mem_held hl))
  · have haccount := h.account
    rw [unlinked, List.append_nil] at haccount
    show s.enqueued ++ _ = s.dequeued ++ s.items (c.held ++ L ++ [n])
    obtain ⟨e, he⟩ := Option.ne_none_iff_exists'.mp (h.live n (by simp [newNode]))
    have hn : s.items [n] = ((s.heap n).map Node.item).toList := by
      rw [show (s.heap n).map Node.item = some e from he, State.items, List.filterMap_cons_some he]
      rfl
    rw [haccount, State.items_append _ [n], hn, List.append_assoc]

/-- The head of the empty queue is stored. -/
theorem Inv.store (h : Inv s L (.link none n) c) (hg : s.runableQueue.head_ = none) : Inv { s with
    runableQueue := { s.runableQueue with head_ := some n }
    enqueuing := Function.update s.enqueuing none .idle } [n] .idle c := by
  obtain rfl : L = [] := by
    cases L with
    | nil => rfl
    | cons y L => exact absurd (hg.symm.trans h.chain.1) (by simp)
  have hsub : c.held ++ [n] ++ newNode .idle = c.held ++ [] ++ newNode (.link none n) := by
    simp [newNode]
  refine ⟨⟨rfl, h.new n (List.mem_singleton_self n)⟩, hsub ▸ h.nodup, fun x hx => ?_, h.fresh,
    fun x hx => (by cases hx), h.tail, fun t m ht => (by cases ht),
    h.hand.frame (fun hne => absurd hg hne) (fun _ _ hxy => hxy) fun _ _ => rfl, ?_, h.newQueue,
    h.dangling⟩
  · exact h.live x (hsub ▸ hx)
  · rw [show c.held ++ [n] ++ unlinked .idle = c.held ++ [] ++ unlinked (.link none n) by
      simp [unlinked]]
    exact h.account

/-- The new node is linked behind the last one. -/
theorem Inv.link (h : Inv s L (.link (some t) n) c)
    (hg : (s.heap t).isSome ∧ t ∉ c.held) : Inv { s.writeNext t n with
    enqueuing := Function.update s.enqueuing none .idle } (L ++ [n]) .idle c := by
  obtain ⟨hheap, hheld⟩ := hg
  have hitem : s.item t ≠ none := by
    rw [State.item, ne_eq, Option.map_eq_none_iff, ← ne_eq, Option.ne_none_iff_isSome]
    exact hheap
  have hlast : L.getLast? = some t := by
    rcases h.target t n rfl with hl | ht | ht
    · exact hl
    · exact absurd ht hheld
    · exact absurd ht hitem
  obtain ⟨heap', hw, hitem', hnext'⟩ := State.writeNext_eq (y := n) hitem
  rw [hw] at hitem' hnext' ⊢
  -- no other link changes, and this one was null
  have hne : ∀ x, x ≠ t → Function.update s.next t (some n) x = s.next x :=
    fun x hx => Function.update_of_ne hx _ _
  have hnodup := h.nodup
  have htL : t ∈ L := List.mem_of_getLast? hlast
  have hnt : n ≠ t := by
    rintro rfl
    exact (List.nodup_append.mp hnodup).2.2 n (List.mem_append_right _ htL) n
      (by simp [newNode]) rfl
  have hsub : c.held ++ (L ++ [n]) ++ newNode .idle =
      c.held ++ L ++ newNode (.link (some t) n) := by
    simp [newNode]
  constructor
  case chain =>
    show Chain (State.next { s with heap := heap' }) _ _ _
    rw [hnext']
    obtain ⟨l, rfl⟩ := List.getLast?_eq_some_iff.mp hlast
    have hl : (l ++ [t]).Nodup := (List.nodup_append.mp (List.nodup_append.mp hnodup).1).2.1
    refine h.chain.link (fun ht => ?_) (by simpa using hnt.symm) ⟨rfl, h.new n (by simp [newNode])⟩
    exact (List.nodup_append.mp hl).2.2 t ht t (by simp) rfl
  case nodup => exact hsub ▸ hnodup
  case live =>
    intro x hx
    show State.item { s with heap := heap' } x ≠ none
    rw [hitem']
    exact h.live x (hsub ▸ hx)
  case fresh =>
    intro x hx
    exact h.fresh x (hitem' ▸ hx)
  case new =>
    intro x hx
    cases hx
  case tail =>
    intro y hy
    rcases h.tail y hy with hl | ⟨hy, hn⟩
    · left
      simpa [unlinked] using hl
    · -- the node that `dequeue` has taken out is another one
      refine .inr ⟨hy, ?_⟩
      show State.next { s with heap := heap' } y = none
      rw [hnext', hne y fun hyt => hheld (hyt ▸ mem_held hy)]
      exact hn
  case target =>
    intro t m ht
    cases ht
  case hand =>
    refine h.hand.frame (fun _ => rfl) (fun x y hxy => ?_) fun x _ => congrFun hitem' x
    show State.next { s with heap := heap' } x = some y
    rw [hnext', hne x]
    · exact hxy
    · rintro rfl
      rw [h.next_last hlast] at hxy
      cases hxy
  case account =>
    show s.enqueued = s.dequeued ++ State.items { s with heap := heap' } _
    rw [State.items_congr (s := s) fun x _ => congrFun hitem' x,
      show c.held ++ (L ++ [n]) ++ unlinked .idle =
        c.held ++ L ++ unlinked (.link (some t) n) by simp [unlinked]]
    exact h.account
  case newQueue => exact h.newQueue
  case dangling => exact h.dangling

/-! ### Steps of the consumer -/

/-- A step that only reads. -/
theorem Inv.goto (h : Inv s L p c) (hheld : c'.held = c.held)
    (htaken : ∀ y ∈ taken c, s.next y = none → y ∈ taken c') (hhand : Hand s c') :
    Inv { s with consumer := c' } L p c' := by
  refine ⟨h.chain, hheld ▸ h.nodup, hheld ▸ h.live, h.fresh, h.new, fun y hy => ?_,
    hheld ▸ h.target, hhand.frame (fun _ => rfl) (fun _ _ hxy => hxy) fun _ _ => rfl,
    hheld ▸ h.account, h.newQueue, h.dangling⟩
  apply (h.tail y hy).imp_right
  rintro ⟨ht, hn⟩
  exact ⟨htaken y ht hn, hn⟩

/-- A reset of the tail, which the invariant always allows. -/
theorem Inv.reset (h : Inv s L p c) (hheld : c'.held = c.held) (hhand : Hand s c') : Inv { s with
    runableQueue := { s.runableQueue with tail_ := none }
    consumer := c' } L p c' := by
  refine ⟨h.chain, hheld ▸ h.nodup, hheld ▸ h.live, h.fresh, h.new, fun y hy => ?_,
    hheld ▸ h.target, hhand.frame (fun _ => rfl) (fun _ _ hxy => hxy) fun _ _ => rfl,
    hheld ▸ h.account, h.newQueue, h.dangling⟩
  cases hy

/-- The first node is taken out. -/
theorem Inv.take {next : Option Nat} (h : Inv s L p (.cas x next)) (hg : next = s.next x) :
    ∃ L', Inv { s with
      runableQueue := { s.runableQueue with head_ := next }
      consumer := .data x } L' p (.data x) := by
  obtain ⟨hhead, -⟩ := h.hand
  cases L with
  | nil => exact absurd (hhead.symm.trans h.chain) (by simp)
  | cons y L =>
    obtain ⟨hy, hchain⟩ := h.chain
    obtain rfl : x = y := Option.some.inj (hhead.symm.trans hy)
    subst hg
    refine ⟨L, hchain, h.nodup, h.live, h.fresh, h.new, fun y hy => ?_, fun t n ht => ?_, trivial,
      h.account, h.newQueue, h.dangling⟩
    · -- the tail is still the last node, and that may be the one in the hand
      rcases h.tail y hy with hl | ⟨hl, -⟩
      · cases hL : L ++ unlinked p with
        | nil =>
          rw [List.cons_append, hL] at hl
          obtain rfl : x = y := Option.some.inj hl
          obtain ⟨rfl, -⟩ := List.append_eq_nil_iff.mp hL
          exact .inr ⟨List.mem_singleton_self x, hchain⟩
        | cons z M =>
          rw [List.cons_append, hL, List.getLast?_cons_cons] at hl
          exact .inl hl
      · cases hl
    · rcases h.target t n ht with hl | hl | hl
      · cases L with
        | nil =>
          obtain rfl : x = t := Option.some.inj hl
          exact .inr (.inl (List.mem_singleton_self x))
        | cons z L =>
          rw [List.getLast?_cons_cons] at hl
          exact .inl hl
      · cases hl
      · exact .inr (.inr hl)

/-- The node in the hand is freed, and its value is the caller's. -/
theorem Inv.free {value : Option Empty × α} (h : Inv s L p (.delete x value)) : Inv { s with
    heap := Function.update s.heap x none
    dequeued := s.dequeued ++ [value]
    consumer := .idle } L p .idle := by
  have hvalue : s.item x = some value := h.hand
  obtain ⟨hx, hnodup⟩ : x ∉ L ++ newNode p ∧ (L ++ newNode p).Nodup := List.nodup_cons.mp h.nodup
  have hne : ∀ y ∈ L ++ newNode p, y ≠ x := by
    intro y hy
    rintro rfl
    exact hx hy
  have hunl : ∀ y ∈ L ++ unlinked p, y ∈ L ++ newNode p := by
    intro y hy
    cases p <;> simp_all [unlinked, newNode]
  constructor
  case chain =>
    refine h.chain.frame fun y hy => State.next_free rfl (hne y (List.mem_append_left _ hy))
  case nodup => exact hnodup
  case live =>
    intro y hy
    rw [State.item_free rfl, Function.update_of_ne (hne y hy)]
    exact h.live y (List.mem_cons_of_mem _ hy)
  case fresh =>
    intro y hy
    apply h.fresh y
    intro hn
    apply hy
    rw [State.item_free rfl]
    rcases eq_or_ne y x with rfl | hyx
    · exact Function.update_self _ _ _
    · rw [Function.update_of_ne hyx, hn]
  case new =>
    intro y hy
    rw [State.next_free rfl (hne y (List.mem_append_right _ hy))]
    exact h.new y hy
  case tail =>
    intro y hy
    rcases h.tail y hy with hl | ⟨hl, -⟩
    · exact .inl hl
    · cases hl
  case target =>
    intro t n ht
    rcases h.target t n ht with hl | hl | hl
    · exact .inl hl
    · -- the old tail is the node that is freed
      obtain rfl := List.mem_singleton.mp hl
      rw [State.item_free rfl]
      exact .inr (.inr (Function.update_self _ _ _))
    · refine .inr (.inr ?_)
      rw [State.item_free rfl]
      rcases eq_or_ne t x with rfl | htx
      · exact Function.update_self _ _ _
      · rw [Function.update_of_ne htx, hl]
  case hand => trivial
  case account =>
    rw [State.items_congr (s := s) fun y hy => by
      rw [State.item_free rfl, Function.update_of_ne (hne y (hunl y hy))]]
    have hitems : s.items (x :: (L ++ unlinked p)) = value :: s.items (L ++ unlinked p) :=
      List.filterMap_cons_some hvalue
    calc s.enqueued = s.dequeued ++ s.items (x :: (L ++ unlinked p)) := h.account
      _ = s.dequeued ++ [value] ++ s.items (L ++ unlinked p) := by
        rw [hitems, List.append_assoc, List.singleton_append]
  case newQueue => exact h.newQueue
  case dangling => exact h.dangling

theorem inv_dequeue (h : Inv s L (s.enqueuing none) s.consumer)
    (hs : step s .dequeue = some s') : Inv s' L (s'.enqueuing none) s'.consumer := by
  simp only [step] at hs
  split at hs
  case h_2 => cases hs
  case h_1 hc =>
    obtain rfl := Option.some.inj hs
    rw [hc] at h
    cases hhead : s.runableQueue.head_ with
    | none => exact h.goto rfl (fun _ hy => by cases hy) trivial
    | some old_head => exact h.goto rfl (fun _ hy => by cases hy) hhead

theorem inv_consume {strong : Bool} (h : Inv s L (s.enqueuing none) s.consumer)
    (hg : Apart s (.consume strong)) (hs : step s (.consume strong) = some s') :
    ∃ L', Inv s' L' (s'.enqueuing none) s'.consumer := by
  cases hc : s.consumer with
  | idle => simp [step, hc, consumerStep] at hs
  | concatTail _ => exact absurd h.hand (by rw [hc]; exact id)
  | concatLink _ _ => exact absurd h.hand (by rw [hc]; exact id)
  | concatSteal => exact absurd h.hand (by rw [hc]; exact id)
  | concatStore _ => exact absurd h.hand (by rw [hc]; exact id)
  | next old_head =>
    rw [hc] at h
    have hhead : s.runableQueue.head_ = some old_head := h.hand
    obtain ⟨L, rfl⟩ : ∃ L', L = old_head :: L' := by
      cases L with
      | nil => exact absurd (hhead.symm.trans h.chain) (by simp)
      | cons y L => exact ⟨L, by rw [Option.some.inj (hhead.symm.trans h.chain.1)]⟩
    simp only [step, hc, consumerStep, State.touch_eq (h.live old_head (by simp)),
      Option.some.injEq] at hs
    subst hs
    exact ⟨_, h.goto rfl (fun _ hy => by cases hy) ⟨hhead, fun y hy => hy⟩⟩
  | cas old_head next =>
    rw [hc] at h
    obtain ⟨hhead, -⟩ := h.hand
    simp only [step, hc, consumerStep, hhead, decide_true, Bool.and_true] at hs
    cases strong with
    | false =>
      -- a spurious failure reads the same head again
      simp only [Bool.false_eq_true, if_false, Option.some.injEq] at hs
      subst hs
      exact ⟨L, h.goto rfl (fun _ hy => by cases hy) hhead⟩
    | true =>
      simp only [if_true, Option.some.injEq] at hs
      subst hs
      simp only [Apart, hc, TakeSafe] at hg
      exact h.take (hg hhead)
  | data old_head =>
    rw [hc] at h
    obtain ⟨node, hnode⟩ := State.exists_heap (h.live old_head (by simp [ConsumerPc.held]))
    simp only [step, hc, consumerStep, hnode, Option.some.injEq] at hs
    subst hs
    refine ⟨L, h.goto rfl (fun _ hy _ => hy) ?_⟩
    show (s.heap old_head).map Node.item = _
    rw [hnode]
    rfl
  | test old_head value =>
    rw [hc] at h
    have hvalue : s.item old_head = some value := h.hand
    simp only [step, hc, consumerStep, State.touch_eq (x := old_head) (by rw [hvalue]; simp),
      Option.some.injEq] at hs
    subst hs
    cases hn : s.next old_head with
    | none => exact ⟨L, h.goto rfl (fun _ hy _ => hy) hvalue⟩
    | some z =>
      -- a node with a link is not the tail
      refine ⟨L, h.goto rfl (fun y hy hny => ?_) hvalue⟩
      obtain rfl := List.mem_singleton.mp hy
      rw [hn] at hny
      cases hny
  | clear old_head value =>
    rw [hc] at h
    simp only [step, hc, consumerStep, Option.some.injEq] at hs
    subst hs
    exact ⟨L, h.reset rfl h.hand⟩
  | delete old_head value =>
    rw [hc] at h
    have hvalue : s.item old_head = some value := h.hand
    simp only [step, hc, consumerStep, State.touch_eq (x := old_head) (by rw [hvalue]; simp),
      Option.some.injEq] at hs
    subst hs
    exact ⟨L, h.free⟩
  | empty =>
    rw [hc] at h
    simp only [step, hc, consumerStep, Option.some.injEq] at hs
    subst hs
    exact ⟨L, h.reset rfl trivial⟩

theorem inv_produce (h : Inv s L (s.enqueuing none) s.consumer) (hg : Apart s .produce)
    (hs : step s .produce = some s') : ∃ L', Inv s' L' (s'.enqueuing none) s'.consumer := by
  cases hp : s.enqueuing none with
  | idle => simp [step, hp, enqueueStep] at hs
  | exchange n =>
    rw [hp] at h
    simp only [step, hp, enqueueStep, Option.some.injEq] at hs
    subst hs
    refine ⟨L, ?_⟩
    show Inv _ L (Function.update s.enqueuing none _ none) s.consumer
    rw [Function.update_self]
    exact h.exchange
  | link old_tail n =>
    rw [hp] at h
    simp only [Apart, hp] at hg
    cases old_tail with
    | none =>
      simp only [step, hp, enqueueStep, Option.some.injEq] at hs
      subst hs
      refine ⟨[n], ?_⟩
      show Inv _ [n] (Function.update s.enqueuing none _ none) s.consumer
      rw [Function.update_self]
      exact h.store hg
    | some t =>
      simp only [step, hp, enqueueStep, Option.some.injEq] at hs
      subst hs
      have hc : (s.writeNext t n).consumer = s.consumer := by
        rw [State.writeNext]
        split <;> rfl
      have hlink := h.link hg
      rw [← hc] at hlink
      refine ⟨L ++ [n], ?_⟩
      show Inv _ _ (Function.update s.enqueuing none _ none) (s.writeNext t n).consumer
      rw [Function.update_self]
      exact hlink

/-! ### Runs -/

/-- **The step lemma.** -/
theorem inv_step {a : Action α} (h : Inv s L (s.enqueuing none) s.consumer) (hg : Apart s a)
    (hs : step s a = some s') : ∃ L', Inv s' L' (s'.enqueuing none) s'.consumer := by
  cases a with
  | enqueue value =>
    simp only [step, Option.ite_none_right_eq_some, Option.some.injEq] at hs
    obtain ⟨hidle, rfl⟩ := hs
    rw [hidle] at h
    refine ⟨L, ?_⟩
    show Inv _ L (Function.update s.enqueuing none _ none) s.consumer
    rw [Function.update_self]
    exact h.enqueue
  | produce => exact inv_produce h hg hs
  | dequeue => exact ⟨L, inv_dequeue h hs⟩
  | consume strong => exact inv_consume h hg hs

/-- **The run lemma.** -/
theorem inv_reachable (h : (system α).ReachableUnder Apart s) :
    ∃ L, Inv s L (s.enqueuing none) s.consumer := by
  refine h.invariant (I := fun s => ∃ L, Inv s L (s.enqueuing none) s.consumer) ?_ ?_
  · rintro s rfl
    exact ⟨[], inv_initial⟩
  · rintro s a s' ⟨L, h⟩ hg hs
    exact inv_step h hg hs

/-- Between two calls following the links finds what waits. -/
theorem Inv.reachable (h : Inv s L .idle .idle) : s.reachable = (s.items L).map Prod.snd := by
  have hnodup : L.Nodup := by simpa [ConsumerPc.held, newNode] using h.nodup
  have hlive : ∀ x ∈ L, s.item x ≠ none := by simpa [ConsumerPc.held, newNode] using h.live
  have hwalk : s.walk s.fresh s.runableQueue.head_ = L :=
    State.walk_eq h.chain (State.length_le_fresh hnodup fun x hx => h.fresh x (hlive x hx))
  have hnew : s.walk s.fresh s.newQueue.head_ = [] := by
    rw [h.newQueue]
    cases s.fresh <;> rfl
  rw [State.reachable, hwalk, hnew, List.append_nil, State.items_snd]

theorem Inv.inOrder (h : Inv s L (s.enqueuing none) s.consumer) : InOrder s where
  order := by
    rw [h.account, List.map_append]
    exact List.prefix_append _ _
  values := by
    rintro ⟨hc, hidle⟩
    rw [hc, hidle none] at h
    rw [h.reachable, h.account, List.map_append]
    simp [ConsumerPc.held, unlinked]
  dangling := h.dangling

/-- **The queue keeps all values in their order** in every run in which the producer stores only
    the head of an empty queue, links only to a node that has not been taken out, and the consumer
    takes a node out only while the link that it has read is up to date. -/
theorem apart_inOrder (h : (system α).ReachableUnder Apart s) : InOrder s := by
  obtain ⟨L, h⟩ := inv_reachable h
  exact h.inOrder

/-- The consumer polls while the first value is enqueued, and dequeues it while the second one is
    enqueued: it has read a null when the second node is linked, and reads again. -/
def overlapped : List (Action Nat) :=
  [.dequeue, .enqueue 1, .consume true, .produce, .produce, .enqueue 2, .dequeue, .consume true,
    .produce, .produce, .consume false, .consume true, .consume true, .consume true,
    .consume true, .consume true]

/-- The second value of `overlapped` waits in the queue. -/
theorem apart_inOrder_overlapped : ∃ s : State Empty Nat, s.Quiet ∧ s.dequeued = [(none, 1)] ∧
    s.reachable = [2] ∧ InOrder s := by
  have hr : (system Nat).exec initial overlapped = some _ := rfl
  exact ⟨_, ⟨rfl, by decide⟩, rfl, by decide, apart_inOrder (.exec (.init rfl) (by decide) hr)⟩

end LimWebserver.LFQueuePair
