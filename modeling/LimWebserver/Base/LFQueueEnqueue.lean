import LimWebserver.Base.LFQueueInv

namespace LimWebserver.LFQueue

open LimWebserver.Lib

/-!
# Base — the steps of `LFQueue::enqueue` keep the invariant

One lemma for each step, whichever thread takes it: `new`, the exchange of the tail, the link
behind the old tail, and the store of the head of an empty queue.
-/

variable {P α : Type*} [DecidableEq P] {s s' : State P α} {R N : List Nat} {o : Option P}
  {x n : Nat} {v : α}

/-- The node that is built next is in no queue. -/
theorem Nodes.item_fresh {H : List Nat} (h : Nodes s H) : s.item s.fresh = none := by
  by_contra hne
  exact Nat.lt_irrefl _ (h.fresh _ hne)

theorem Nodes.ne_fresh {H : List Nat} (h : Nodes s H) (hx : s.item x ≠ none) : x ≠ s.fresh :=
  Nat.ne_of_lt (h.fresh x hx)

/-- Two threads are never about to link the same node. -/
theorem Nodes.owner_unique {H : List Nat} (h : Nodes s H) {o' : Option P} {p p' : Option Nat}
    (ho : s.enqueuing o = .link p n) (ho' : s.enqueuing o' = .link p' n) : o = o' := by
  obtain ⟨v, hv⟩ := h.owner _ _ _ ho
  obtain ⟨v', hv'⟩ := h.owner _ _ _ ho'
  rw [hv, Option.some.injEq, Prod.mk.injEq] at hv'
  exact hv'.1

/-! ### Frames -/

/-- What a step may do that takes no node out and brings none in. -/
theorem Nodes.frame {H : List Nat} (h : Nodes s H) (hitem : s'.item = s.item)
    (hnext : ∀ y, y ∉ H → s'.next y = s.next y) (hfresh : s'.fresh = s.fresh)
    (hd : s'.dangling = s.dangling)
    (henq : ∀ o, s'.enqueuing o = .idle ∨ s'.enqueuing o = s.enqueuing o)
    (hin : s'.enqueued = s.enqueued) (hout : s'.dequeued = s.dequeued) : Nodes s' H := by
  refine ⟨hd ▸ h.dangling, h.nodup, fun y hy => ?_, fun y hy => ?_, fun o m ho => ?_,
    fun o p m ho => ?_, fun o => ?_⟩
  -- a thread that is at the exchange or the link was there before
  · rw [hitem]; exact h.live y hy
  · rw [hfresh]; exact h.fresh y (hitem ▸ hy)
  · rcases henq o with h' | h' <;> rw [h'] at ho
    · cases ho
    · obtain ⟨hm, hmn, hv⟩ := h.exchange o m ho
      exact ⟨hm, (hnext m hm).trans hmn, hitem ▸ hv⟩
  · rcases henq o with h' | h' <;> rw [h'] at ho
    · cases ho
    · exact hitem ▸ h.owner o p m ho
  · have hi : s'.items H = s.items H := State.items_congr fun y _ => congrFun hitem y
    rw [hi, hin, hout]
    exact h.account o

/-- A thread that has finished its call. -/
theorem update_idle (o o' : Option P) : Function.update s.enqueuing o .idle o' = .idle ∨
    Function.update s.enqueuing o .idle o' = s.enqueuing o' := by
  rcases eq_or_ne o' o with rfl | ho
  · exact .inl (Function.update_self _ _ _)
  · exact .inr (Function.update_of_ne ho _ _)

/-! ### `new Node(value)` -/

/-- The new node is no node of the queues, and its thread is at the exchange. -/
theorem Nodes.alloc {H : List Nat} (h : Nodes s H)
    (hlink : ∀ o' p n, Function.update s.enqueuing o (.exchange s.fresh) o' = .link p n ↔
      s.enqueuing o' = .link p n) :
    Nodes { s with
      heap := Function.update s.heap s.fresh (some ⟨o, v, none⟩)
      fresh := s.fresh + 1
      enqueuing := Function.update s.enqueuing o (.exchange s.fresh) } H := by
  have hfresh := h.item_fresh
  have hitem : ∀ y, s.item y ≠ none →
      Function.update s.item s.fresh (some (o, v)) y = s.item y := fun y hy =>
    Function.update_of_ne (h.ne_fresh hy) _ _
  refine ⟨h.dangling, h.nodup, fun y hy => ?_, fun y hy => ?_, fun o' n ho => ?_,
    fun o' p n ho => ?_, fun o' => ?_⟩
  · rw [State.item_alloc rfl, hitem y (h.live y hy)]
    exact h.live y hy
  · rw [State.item_alloc rfl] at hy
    rcases eq_or_ne y s.fresh with rfl | hne
    · exact Nat.lt_succ_self _
    · rw [Function.update_of_ne hne] at hy
      exact Nat.lt_succ_of_lt (h.fresh y hy)
  · rw [State.next_alloc rfl hfresh, State.item_alloc rfl]
    rcases eq_or_ne o' o with rfl | hne
    · -- the thread that has built it
      obtain rfl : s.fresh = n := by simpa using ho
      refine ⟨fun hn => h.live _ hn hfresh, State.next_eq_none hfresh, v, ?_⟩
      rw [Function.update_self]
    · obtain ⟨hn, hnext, w, hw⟩ := h.exchange o' n (by
        rwa [← Function.update_of_ne hne (.exchange s.fresh) s.enqueuing])
      exact ⟨hn, hnext, w, (hitem n (by rw [hw]; exact Option.some_ne_none _)).trans hw⟩
  · obtain ⟨w, hw⟩ := h.owner o' p n ((hlink o' p n).mp ho)
    refine ⟨w, ?_⟩
    rw [State.item_alloc rfl, hitem n (by rw [hw]; exact Option.some_ne_none _), hw]
  · rw [State.items_congr (s := s) fun y hy => by rw [State.item_alloc rfl, hitem y (h.live y hy)]]
    exact h.account o'

theorem inv_enqueue (h : Inv s R N) (hs : step s (.enqueue o v) = some s') : Inv s' R N := by
  simp only [step, Option.ite_none_right_eq_some, Option.some.injEq] at hs
  obtain ⟨⟨hidle, hcons⟩, rfl⟩ := hs
  have hfresh := h.nodes.item_fresh
  have hlink : ∀ o' p n, Function.update s.enqueuing o (.exchange s.fresh) o' = .link p n ↔
      s.enqueuing o' = .link p n := fun o' p n => by
    rcases eq_or_ne o' o with rfl | hne
    · simp [hidle]
    · rw [Function.update_of_ne hne]
  refine ⟨h.nodes.alloc hlink, h.links.frame (fun o' x n => hlink o' (some x) n) fun x n _ => ?_,
    ?_, ?_, ?_⟩
  · rw [State.next_alloc rfl hfresh]
  · -- `newQueue` has no new node and no new link
    have hq := h.newQueue
    refine ⟨hq.tail, fun x hx => ?_, fun x hx w => ?_, ?_⟩
    · rw [State.next_alloc rfl hfresh]
      exact hq.last x hx
    · rw [State.item_alloc rfl,
        Function.update_of_ne (h.nodes.ne_fresh (h.nodes.live x (by simp [hx])))]
      exact hq.producer x hx w
    · have hh := hq.head
      cases hst : s.consumer.stolen <;> simp only [hst, NewHead, ne_eq, hlink] at hh ⊢ <;> exact hh
  · cases o with
    | none =>
      -- the consumer enqueues into its own queue only between its other calls
      have hc : s.consumer = .idle := by
        cases hc : s.consumer <;> simp_all
      have hr := h.runQueue
      simp only [hc, RunQueue, hlink] at hr ⊢
      refine ⟨hr.1, fun x hx => ?_, hr.2.2⟩
      rw [State.next_alloc rfl hfresh]
      exact hr.2.1 x hx
    | some p =>
      -- a producer leaves `runableQueue` alone
      refine h.runQueue.frame rfl ?_ (fun x _ => ?_) (fun x y hxy => ?_) (fun x hx => ?_)
        fun _ => rfl
      · exact Function.update_of_ne (Option.some_ne_none p).symm (.exchange s.fresh) s.enqueuing
      · rw [State.next_alloc rfl hfresh]
      · rwa [State.next_alloc rfl hfresh]
      · refine ⟨by rw [State.next_alloc rfl hfresh], ?_⟩
        rw [State.item_alloc rfl,
          Function.update_of_ne (h.nodes.ne_fresh (h.nodes.live x (by simp [hx])))]
  · intro hne
    rcases eq_or_ne o none with rfl | ho
    · exact absurd (hcons rfl) (by cases hc : s.consumer <;> simp_all)
    · show Function.update s.enqueuing o _ none = .idle
      rw [Function.update_of_ne (Ne.symm ho)]
      exact h.busy hne

/-! ### `tail_.exchange(new_node)` -/

/-- The node of the exchange is behind the others from now on. -/
theorem Nodes.exchanged {H H' : List Nat} (h : Nodes s H) (hpc : s.enqueuing o = .exchange n)
    (hn : s.item n = some (o, v)) (hp : H'.Perm (H ++ [n]))
    (hf : ∀ o', ((s.items H').filter fun e => e.1 = o') =
      (s.items H ++ [(o, v)]).filter fun e => e.1 = o') (p : Option Nat)
    (hheap : s'.heap = s.heap) (hfresh : s'.fresh = s.fresh) (hd : s'.dangling = s.dangling)
    (henq : s'.enqueuing = Function.update s.enqueuing o (.link p n))
    (hin : s'.enqueued = s.enqueued ++ [(o, v)]) (hout : s'.dequeued = s.dequeued) :
    Nodes s' H' := by
  have hitem : s'.item = s.item := by funext y; rw [State.item, hheap]; rfl
  have hnext : s'.next = s.next := by funext y; rw [State.next, hheap]; rfl
  have hnH := (h.exchange o n hpc).1
  have hmem : ∀ y, y ∈ H' ↔ y ∈ H ∨ y = n := fun y => by rw [hp.mem_iff]; simp
  refine ⟨hd ▸ h.dangling, ?_, fun y hy => ?_, fun y hy => ?_, fun o' m ho => ?_,
    fun o' p' m ho => ?_, fun o' => ?_⟩
  · -- the node of an exchange was in no queue
    rw [hp.nodup_iff, List.nodup_append]
    refine ⟨h.nodup, by simp, fun y hy z hz hyz => ?_⟩
    obtain rfl : z = n := by simpa using hz
    exact hnH (hyz ▸ hy)
  · rw [hitem]
    rcases (hmem y).mp hy with hy | rfl
    · exact h.live y hy
    · rw [hn]; exact Option.some_ne_none _
  · rw [hfresh]
    exact h.fresh y (hitem ▸ hy)
  · rw [henq] at ho
    have hne : o' ≠ o := by rintro rfl; simp at ho
    rw [Function.update_of_ne hne] at ho
    obtain ⟨hm, hmn, w, hw⟩ := h.exchange o' m ho
    -- another thread at the exchange has another node
    rw [hnext, hitem]
    refine ⟨fun hm' => ?_, hmn, w, hw⟩
    rcases (hmem m).mp hm' with hm' | rfl
    · exact hm hm'
    · rw [hn, Option.some.injEq, Prod.mk.injEq] at hw
      exact hne hw.1.symm
  · rw [henq] at ho
    rw [hitem]
    rcases eq_or_ne o' o with rfl | hne
    · obtain ⟨-, rfl⟩ : p = p' ∧ n = m := by simpa using ho
      exact ⟨v, hn⟩
    · rw [Function.update_of_ne hne] at ho
      exact h.owner o' p' m ho
  · have ha := h.account o'
    have hi : s'.items H' = s.items H' := State.items_congr fun y _ => congrFun hitem y
    rw [hi, hin, hout, List.filter_append, ha, ← List.filter_append, List.append_assoc,
      List.filter_append, ← hf o', ← List.filter_append]

/-- The link to the node of the exchange is pending from now on. -/
theorem Links.exchanged {E E' : Nat → Nat → Prop} {t : Option Nat} (h : Links s E)
    (hpc : s.enqueuing o = .exchange n) (hE : ∀ x y, E' x y ↔ E x y ∨ t = some x ∧ y = n)
    (ht : ∀ x, t = some x → s.next x = none) (hheap : s'.heap = s.heap)
    (henq : s'.enqueuing = Function.update s.enqueuing o (.link t n)) : Links s' E' := by
  have hnext : s'.next = s.next := by funext y; rw [State.next, hheap]; rfl
  refine ⟨fun o' x m ho => ?_, fun x m he => ?_⟩ <;> rw [hnext]
  · rw [henq] at ho
    rcases eq_or_ne o' o with rfl | hne
    · obtain ⟨rfl, rfl⟩ : t = some x ∧ n = m := by simpa using ho
      exact ⟨ht x rfl, (hE x n).mpr (.inr ⟨rfl, rfl⟩)⟩
    · rw [Function.update_of_ne hne] at ho
      obtain ⟨hx, he⟩ := h.pending o' x m ho
      exact ⟨hx, (hE x m).mpr (.inl he)⟩
  · rw [henq]
    rcases (hE x m).mp he with he | ⟨rfl, rfl⟩
    · apply (h.succ x m he).imp id
      rintro ⟨hx, ho⟩
      exact ⟨hx, exists_update_eq (by rw [hpc]; simp) ho⟩
    · exact .inr ⟨ht x rfl, o, Function.update_self _ _ _⟩

/-- A producer's exchange at a queue whose head is stolen or not. -/
theorem newHead_exchanged {p : P} {stolen : Bool} (hq : NewQueue s N stolen)
    (hpc : s.enqueuing (some p) = .exchange n) (henqd : List (Option P × α)) :
    NewHead { s.setQueue (some p) { s.queue (some p) with tail_ := some n } with
      enqueuing := Function.update s.enqueuing (some p) (.link (s.queue (some p)).tail_ n)
      enqueued := henqd } (N ++ [n]) stolen := by
  have hh := hq.head
  have ht : (s.queue (some p)).tail_ = N.getLast? := hq.tail
  rw [ht]
  cases N with
  | nil =>
    -- the exchange returns null: this producer is the one that is to store the head
    cases stolen with
    | true => exact absurd rfl hh.2.1
    | false =>
      obtain ⟨hfirst, hhead⟩ := hh
      have hnone : s.newQueue.head_ = none := by
        rcases hhead with hh | hh
        · exact hh
        · exact hh.1
      refine ⟨fun p' m hm => ?_, .inr ⟨hnone, p, n, Function.update_self _ _ _⟩⟩
      rcases eq_or_ne p' p with rfl | hne
      · obtain rfl : n = m := by simpa using hm
        exact ⟨hnone, rfl⟩
      · have hm' : s.enqueuing (some p') = .link none m := by
          rwa [← Function.update_of_ne (by simpa using hne : some p' ≠ some p)
            (.link [].getLast? n) s.enqueuing]
        cases (hfirst p' m hm').2
  | cons x N =>
    -- the exchange returns a node, so that the head is not this producer's business
    have hlink : ∀ p' m, Function.update s.enqueuing (some p)
        (.link (x :: N).getLast? n) (some p') = .link none m ↔
          s.enqueuing (some p') = .link none m := fun p' m => by
      rcases eq_or_ne p' p with rfl | hne
      · simp [hpc, List.getLast?_cons]
      · rw [Function.update_of_ne (by simpa using hne)]
    cases stolen <;> simp only [NewHead, ne_eq, hlink] at hh ⊢
    · exact hh
    · exact ⟨hh.1, by simp, hh.2.2⟩

/-- A thread that enqueues in `runableQueue` is the consumer, outside `concatenate` and
    `dequeue`. -/
theorem Inv.consumer_idle (h : Inv s R N) (hpc : s.enqueuing none ≠ .idle) :
    s.consumer = .idle := by
  by_contra hne
  exact hpc (h.busy hne)

omit [DecidableEq P] in
/-- The entry of a new node in the list of what has been enqueued. -/
theorem exchanged_item {v : α} (hn : s.item n = some (o, v)) :
    ((s.heap n).map Node.item).toList = [(o, v)] := by
  rw [show (s.heap n).map Node.item = s.item n from rfl, hn]
  rfl

/-- The consumer, behind the nodes of `runableQueue`. -/
theorem inv_exchange_runable (h : Inv s R N) (hpc : s.enqueuing none = .exchange n)
    (hs : step s (.run none) = some s') : ∃ R' N', Inv s' R' N' := by
  simp only [step, hpc, enqueueStep, Option.some.injEq] at hs
  obtain ⟨hnH, hnn, v, hn⟩ := h.nodes.exchange _ n hpc
  rw [exchanged_item hn] at hs
  have hc : s.consumer = .idle := h.consumer_idle (by rw [hpc]; simp)
  obtain ⟨ht, hl, hfirst, hhead⟩ : RunQueue s R N .idle := hc ▸ h.runQueue
  have hnodes : Nodes s (R ++ N) := by simpa [hc, ConsumerPc.held] using h.nodes
  rw [hc] at hnH
  subst hs
  refine ⟨R ++ [n], N, ?_, ?_, ?_, ?_, fun hne => absurd hc hne⟩
  · show Nodes _ (s.consumer.held ++ (R ++ [n]) ++ N)
    rw [hc]
    refine hnodes.exchanged (v := v) hpc hn ?_ (fun o' => ?_) _ rfl rfl rfl rfl rfl rfl
    · show (R ++ [n] ++ N).Perm (R ++ N ++ [n])
      rw [List.append_assoc, List.append_assoc]
      exact List.perm_append_comm.append_left R
    · -- the consumer's own value may pass those of the producers
      show ((s.items (R ++ [n] ++ N)).filter fun e => e.1 = o') = _
      have hN : o' = none → (s.items N).filter (fun e => e.1 = o') = [] := by
        rintro rfl
        apply List.filter_eq_nil_iff.mpr
        intro e he
        obtain ⟨x, hx, hxe⟩ := List.mem_filterMap.mp he
        obtain ⟨p, w⟩ := e
        simp only [decide_eq_true_eq]
        rintro rfl
        exact h.newQueue.producer x hx w hxe
      have h1 : s.items [n] = [(none, v)] := by simp [State.items, hn]
      simp only [State.items_append, List.filter_append, h1, List.append_assoc]
      rcases eq_or_ne o' none with rfl | hne
      · simp [hN rfl]
      · simp [Ne.symm hne]
  · exact h.links.exchanged hpc (fun x y => by rw [adj_snoc_left, ← ht])
      (fun x hx => hl x (ht ▸ hx)) rfl rfl
  · refine h.newQueue.frame rfl (fun p => ?_) (fun _ _ => rfl) fun _ _ => rfl
    exact Function.update_of_ne (Option.some_ne_none p) (.link s.runableQueue.tail_ n) s.enqueuing
  · show RunQueue _ (R ++ [n]) N s.consumer
    rw [hc]
    refine ⟨by simp [State.setQueue], fun x hx => ?_, fun m hm => ?_, ?_⟩
    · obtain rfl : n = x := by simpa using hx
      exact hnn
    · obtain ⟨h1, rfl⟩ : s.runableQueue.tail_ = none ∧ n = m := by simpa [State.queue] using hm
      obtain rfl : R = [] := List.getLast?_eq_none_iff.mp (ht ▸ h1)
      refine ⟨?_, rfl⟩
      rcases hhead with hh | hh
      · exact hh
      · exact hh.1
    · -- into an empty queue, the store of the head is what is still to come
      have hone : ∀ m, s.enqueuing none ≠ .link none m := fun m hm => by simp [hpc] at hm
      rcases hhead with hh | ⟨-, m, hm⟩
      · cases R with
        | nil => exact .inr ⟨hh, n, by simp [State.queue, ht]⟩
        | cons x R => exact .inl hh
      · exact absurd hm (hone m)

/-- A producer, behind the nodes of `newQueue`. -/
theorem inv_exchange_new (h : Inv s R N) (hpc : s.enqueuing (some p) = .exchange n)
    (hs : step s (.run (some p)) = some s') : ∃ R' N', Inv s' R' N' := by
  simp only [step, hpc, enqueueStep, Option.some.injEq] at hs
  obtain ⟨hnH, hnn, v, hn⟩ := h.nodes.exchange _ n hpc
  rw [exchanged_item hn] at hs
  subst hs
  have hq := h.newQueue
  have ht := hq.tail
  have hnone : Function.update s.enqueuing (some p) (.link s.newQueue.tail_ n) none =
      s.enqueuing none := Function.update_of_ne (Option.some_ne_none p).symm _ _
  refine ⟨R, N ++ [n], ?_, ?_, ?_, ?_, fun hne => hnone.trans (h.busy hne)⟩
  · refine h.nodes.exchanged (v := v) hpc hn ?_ (fun o' => ?_) _ rfl rfl rfl rfl rfl rfl
    · show (s.consumer.held ++ R ++ (N ++ [n])).Perm _
      rw [← List.append_assoc]
    · show ((s.items (s.consumer.held ++ R ++ (N ++ [n]))).filter fun e => e.1 = o') = _
      have h1 : s.items [n] = [(some p, v)] := by simp [State.items, hn]
      rw [← List.append_assoc, State.items_append, h1]
  · exact h.links.exchanged hpc (fun x y => by rw [adj_snoc_right, ← ht])
      (fun x hx => hq.last x (ht ▸ hx)) rfl rfl
  · refine ⟨by simp [State.setQueue], fun x hx => ?_, fun x hx w => ?_, ?_⟩
    · obtain rfl : n = x := by simpa using hx
      exact hnn
    · rcases List.mem_append.mp hx with hx | hx
      · exact hq.producer x hx w
      · obtain rfl : x = n := by simpa using hx
        show s.item x ≠ _
        simp [hn]
    · exact newHead_exchanged hq hpc _
  · refine h.runQueue.frame rfl hnone (fun _ _ => rfl) (fun _ _ => id)
      (fun _ _ => ⟨rfl, rfl⟩) fun hst => ?_
    have hh := hq.head
    rw [show s.consumer.stolen = true from hst] at hh
    cases N with
    | nil => exact absurd rfl hh.2.1
    | cons x N => rfl

theorem inv_exchange (h : Inv s R N) (hpc : s.enqueuing o = .exchange n)
    (hs : step s (.run o) = some s') : ∃ R' N', Inv s' R' N' := by
  cases o with
  | none => exact inv_exchange_runable h hpc hs
  | some p => exact inv_exchange_new h hpc hs

/-! ### `old_tail->next_ = new_node` -/

theorem inv_link (h : Inv s R N) (hpc : s.enqueuing o = .link (some x) n)
    (hs : step s (.run o) = some s') : Inv s' R N := by
  simp only [step, hpc, enqueueStep, Option.some.injEq] at hs
  have hnd : (R ++ N).Nodup := by
    have := h.nodes.nodup
    rw [List.append_assoc] at this
    exact (List.nodup_append.mp this).2.1
  obtain ⟨hx, hadj⟩ := h.links.pending o x n hpc
  have hxm := adj_mem_left hadj
  have hxH : x ∈ s.consumer.held ++ R ++ N := by
    rw [List.append_assoc]; exact List.mem_append_right _ hxm
  obtain ⟨heap', hw, hitem, hnext⟩ := State.writeNext_eq (y := n) (h.nodes.live x hxH)
  rw [hw] at hs hitem hnext
  have hne : ∀ y, y ≠ x → ({ s with heap := heap' } : State P α).next y = s.next y := fun y hy => by
    rw [hnext, Function.update_of_ne hy]
  have hlink : ∀ o' m, Function.update s.enqueuing o .idle o' = .link none m ↔
      s.enqueuing o' = .link none m := fun o' m => by
    rcases eq_or_ne o' o with rfl | ho
    · simp [hpc]
    · rw [Function.update_of_ne ho]
  subst hs
  refine ⟨?_, ⟨fun o' y m ho => ?_, fun y m he => ?_⟩, ?_, ?_, fun hc => ?_⟩
  · exact h.nodes.frame hitem (fun y hy => hne y fun hyx => hy (hyx ▸ hxH)) rfl rfl
      (update_idle o) rfl rfl
  · -- no other thread is about to write this link
    have ho' : s.enqueuing o' = .link (some y) m := eq_of_update_eq (by simp) ho
    obtain ⟨hy, hadj'⟩ := h.links.pending o' y m ho'
    refine ⟨(hne y ?_).trans hy, hadj'⟩
    rintro rfl
    obtain rfl := adj_unique hnd hadj hadj'
    obtain rfl := h.nodes.owner_unique hpc ho'
    simp at ho
  · -- the link is written now, and any other one is as it was
    rcases eq_or_ne y x with rfl | hyx
    · obtain rfl := adj_unique hnd hadj he
      left
      show ({ s with heap := heap' } : State P α).next y = _
      rw [hnext, Function.update_self]
    · have hs := h.links.succ y m he
      rw [← hne y hyx] at hs
      refine hs.imp id fun ⟨hy, ho⟩ => ⟨hy, exists_update_eq ?_ ho⟩
      rw [hpc]
      rintro ⟨⟩
      exact hyx rfl
  · have hq := h.newQueue
    refine ⟨hq.tail, fun y hy => ?_, fun y hy w => ?_, ?_⟩
    · exact (hne y fun hyx => adj_ne_last_right hnd hadj (hyx ▸ hy)).trans (hq.last y hy)
    · show ({ s with heap := heap' } : State P α).item y ≠ _
      rw [hitem]
      exact hq.producer y hy w
    · have hh := hq.head
      cases hst : s.consumer.stolen <;> simp only [hst, NewHead, ne_eq, hlink] at hh ⊢ <;> exact hh
  · -- the node in front of another one is not the last of `runableQueue`
    have hlast : ∀ y, R.getLast? = some y →
      ({ s with heap := heap' } : State P α).next y = s.next y :=
      fun y hy => hne y fun hyx => adj_ne_last_left hnd hadj (hyx ▸ hy)
    cases o with
    | none =>
      have hc : s.consumer = .idle := h.consumer_idle (by rw [hpc]; simp)
      have hr := h.runQueue
      simp only [hc, RunQueue, hlink] at hr ⊢
      exact ⟨hr.1, fun y hy => (hlast y hy).trans (hr.2.1 y hy), hr.2.2⟩
    | some p =>
      refine h.runQueue.frame rfl ?_ hlast (fun y z hyz => ?_) (fun y hy => ⟨hne y ?_, ?_⟩)
        fun _ => rfl
      · exact Function.update_of_ne (Option.some_ne_none p).symm .idle s.enqueuing
      · rw [← hyz]
        exact hne y fun hyx => by rw [hyx, hx] at hyz; cases hyz
      · rintro rfl
        have hd := h.nodes.nodup
        rw [List.append_assoc] at hd
        exact (List.nodup_append.mp hd).2.2 y hy y hxm rfl
      · exact congrFun hitem y
  · rcases eq_or_ne none o with rfl | ho
    · exact Function.update_self none .idle s.enqueuing
    · exact (Function.update_of_ne ho .idle s.enqueuing).trans (h.busy hc)

/-! ### `head_.store(new_node)` -/

theorem inv_store (h : Inv s R N) (hpc : s.enqueuing o = .link none n)
    (hs : step s (.run o) = some s') : Inv s' R N := by
  simp only [step, hpc, enqueueStep, Option.some.injEq] at hs
  have hlink : ∀ o' x m, Function.update s.enqueuing o .idle o' = .link (some x) m ↔
      s.enqueuing o' = .link (some x) m := fun o' x m => by
    rcases eq_or_ne o' o with rfl | ho
    · simp [hpc]
    · rw [Function.update_of_ne ho]
  -- any other thread at the same point would have the same node
  have hnone : ∀ o', s.enqueuing o' = .link none n → o' = o := fun o' ho' =>
    h.nodes.owner_unique ho' hpc
  cases o with
  | none =>
    have hc : s.consumer = .idle := h.consumer_idle (by rw [hpc]; simp)
    subst hs
    refine ⟨h.nodes.frame rfl (fun _ _ => rfl) rfl rfl (update_idle _) rfl rfl,
      h.links.frame (hlink · · ·) fun _ _ _ => rfl,
      h.newQueue.frame rfl (fun p => ?_) (fun _ _ => rfl) fun _ _ => rfl, ?_,
      fun _ => Function.update_self none .idle s.enqueuing⟩
    · exact Function.update_of_ne (Option.some_ne_none p) .idle s.enqueuing
    · have hr := h.runQueue
      show RunQueue _ R N s.consumer
      rw [hc] at hr ⊢
      obtain ⟨ht, hl, hfirst, -⟩ := hr
      obtain ⟨-, hh⟩ := hfirst n hpc
      exact ⟨ht, hl, fun m hm => by simp at hm, .inl hh.symm⟩
  | some p =>
    subst hs
    have hq := h.newQueue
    have hself : Function.update s.enqueuing (some p) .idle none = s.enqueuing none :=
      Function.update_of_ne (Option.some_ne_none p).symm _ _
    refine ⟨h.nodes.frame rfl (fun _ _ => rfl) rfl rfl (update_idle _) rfl rfl,
      h.links.frame (hlink · · ·) fun _ _ _ => rfl,
      ⟨hq.tail, hq.last, hq.producer, ?_⟩, ?_, fun hc => hself.trans (h.busy hc)⟩
    · have hh := hq.head
      show NewHead _ N s.consumer.stolen
      cases hst : s.consumer.stolen <;> rw [hst] at hh
      · -- the head is the first node now, and no other producer is to store one
        obtain ⟨-, hN⟩ := hh.1 p n hpc
        refine ⟨fun p' m hm => ?_, .inl hN.symm⟩
        have hm' : s.enqueuing (some p') = .link none m := eq_of_update_eq (by simp) hm
        obtain rfl : n = m := by
          have := (hh.1 p' m hm').2
          rwa [hN, Option.some.injEq] at this
        rw [hnone _ hm'] at hm
        simp at hm
      · -- while `concatenate` has the nodes, no producer has found the queue empty
        exact absurd hpc (hh.2.2 p n)
    · exact h.runQueue.frame rfl hself (fun _ _ => rfl) (fun _ _ => id) (fun _ _ => ⟨rfl, rfl⟩)
        fun _ => rfl

end LimWebserver.LFQueue
