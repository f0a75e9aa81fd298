import LimWebserver.Base.LFQueueEnqueue
import Mathlib.Data.List.Perm.Basic

namespace LimWebserver.LFQueue

open LimWebserver.Lib

/-!
# Base — settled runs of the queues lose nothing

* one lemma for each step of `concatenate` and `dequeue`, the step of `Settled` among them;
* `inv_step` — every settled step keeps the invariant;
* `settled_kept` — what the queues are for holds in every state of every settled run.
-/

variable {P α : Type*} [DecidableEq P] {s s' : State P α} {R N : List Nat} {o : Option P}
  {x n : Nat} {v : α}

/-! ### Steps of the consumer -/

/-- A step that leaves memory and the accounts alone. -/
theorem Nodes.congr {H H' : List Nat} (h : Nodes s H) (hH : H' = H) (hheap : s'.heap = s.heap)
    (hfresh : s'.fresh = s.fresh) (hd : s'.dangling = s.dangling)
    (henq : s'.enqueuing = s.enqueuing) (hin : s'.enqueued = s.enqueued)
    (hout : s'.dequeued = s.dequeued) : Nodes s' H' :=
  hH ▸ h.frame (by funext y; rw [State.item, hheap]; rfl)
    (fun y _ => by rw [State.next, hheap]; rfl) hfresh hd (fun _ => .inr (by rw [henq])) hin hout

/-- A step of the consumer that leaves memory, the lists and `newQueue` alone. -/
theorem Inv.consume {pc pc' : ConsumerPc P α} {run : Queue} (h : Inv s R N)
    (hpc : s.consumer = pc) (hidle : s.enqueuing none = .idle) (hheld : pc'.held = pc.held)
    (hstolen : pc'.stolen = pc.stolen)
    (hrun : RunQueue { s with runableQueue := run, consumer := pc' } R N pc') :
    Inv { s with runableQueue := run, consumer := pc' } R N := by
  refine ⟨h.nodes.congr ?_ rfl rfl rfl rfl rfl rfl,
    h.links.frame (fun _ _ _ => Iff.rfl) fun _ _ _ => rfl, ?_, hrun, fun _ => hidle⟩
  · rw [hpc, ← hheld]
  · show NewQueue _ N pc'.stolen
    rw [hstolen, ← hpc]
    exact h.newQueue.frame rfl (fun _ => rfl) (fun _ _ => rfl) fun _ _ => rfl

omit [DecidableEq P] in
/-- When the consumer enqueues nothing, the head of `runableQueue` is its first node. -/
theorem head_of_idle {head : Option Nat} (hidle : s.enqueuing none = .idle)
    (hhead : s.runableQueue.head_ = head ∨
      s.runableQueue.head_ = none ∧ ∃ n, s.enqueuing none = .link none n) :
    s.runableQueue.head_ = head := by
  apply hhead.resolve_right
  rintro ⟨-, n, hn⟩
  rw [hidle] at hn
  cases hn

theorem inv_concatenate (h : Inv s R N) (hs : step s .concatenate = some s') : Inv s' R N := by
  simp only [step] at hs
  split at hs
  case h_2 => cases hs
  case h_1 hidle hc =>
    have hr : RunQueue s R N .idle := hc ▸ h.runQueue
    obtain ⟨ht, hl, -, hhead⟩ := hr
    have hhead : s.runableQueue.head_ = R.head? := head_of_idle hidle hhead
    have hq := h.newQueue
    rw [hc] at hq
    cases hN : s.newQueue.head_ with
    | none =>
      -- nothing to take over
      simp only [hN, Option.some.injEq] at hs
      have hself : s' = s := by
        subst hs
        rw [← hN, ← hc]
      rwa [hself]
    | some otherHead =>
      -- the head is stored, so that no producer is still to store one
      simp only [hN, Option.some.injEq] at hs
      obtain ⟨hfirst, hnew⟩ := hq.head
      have hnew : N.head? = some otherHead := by
        rcases hnew with hnew | hnew
        · rw [← hnew, hN]
        · rw [hN] at hnew; cases hnew.1
      subst hs
      refine ⟨h.nodes.congr (by rw [hc]; rfl) rfl rfl rfl rfl rfl rfl,
        h.links.frame (fun _ _ _ => Iff.rfl) fun _ _ _ => rfl,
        ⟨hq.tail, hq.last, hq.producer, rfl, ?_, fun p n hn => ?_⟩, ⟨?_, hl, hnew⟩, fun _ => hidle⟩
      · rintro rfl
        cases hnew
      · have := (hfirst p n hn).1
        rw [hN] at this
        cases this
      · show s.runableQueue = _
        rw [← hhead, ← ht]

theorem inv_dequeue (h : Inv s R N) (hs : step s .dequeue = some s') : Inv s' R N := by
  simp only [step] at hs
  split at hs
  case h_2 => cases hs
  case h_1 hidle hc =>
    obtain ⟨ht, hl, -, hhead⟩ : RunQueue s R N .idle := hc ▸ h.runQueue
    have hhead : s.runableQueue.head_ = R.head? := head_of_idle hidle hhead
    cases hR : s.runableQueue.head_ with
    | none =>
      simp only [hR, Option.some.injEq] at hs
      subst hs
      exact h.consume hc hidle rfl rfl ⟨hR, List.head?_eq_none_iff.mp (hhead ▸ hR)⟩
    | some old_head =>
      simp only [hR, Option.some.injEq] at hs
      subst hs
      refine h.consume hc hidle rfl rfl ⟨?_, hl, hhead ▸ hR⟩
      rw [← hR, ← ht]

/-! ### `concatenate` -/

theorem inv_concatTail {h₁ : Nat} {b : Bool} (h : Inv s R N) (hpc : s.consumer = .concatTail h₁)
    (hs : step s (.consume b) = some s') : Inv s' R N := by
  simp only [step, hpc, consumerStep, Option.some.injEq] at hs
  obtain ⟨hrun, hl, hN⟩ : RunQueue s R N (.concatTail h₁) := hpc ▸ h.runQueue
  subst hs
  refine h.consume hpc (h.busy (by rw [hpc]; simp)) rfl rfl ⟨?_, ?_, hl, hN⟩
  · show s.runableQueue.head_ = _
    rw [hrun]
  · rw [hrun]

/-- Linking the stolen nodes behind the last one. -/
theorem inv_concatLink {otherHead prevTail : Nat} {b : Bool} (h : Inv s R N)
    (hpc : s.consumer = .concatLink otherHead (some prevTail))
    (hs : step s (.consume b) = some s') : Inv s' R N := by
  simp only [step, hpc, consumerStep, Option.some.injEq] at hs
  obtain ⟨hrun, hp, hl, hN⟩ : RunQueue s R N (.concatLink otherHead (some prevTail)) :=
    hpc ▸ h.runQueue
  have hnodes : Nodes s (R ++ N) := by simpa [hpc, ConsumerPc.held] using h.nodes
  have hpR : prevTail ∈ R := List.mem_of_getLast? hp.symm
  obtain ⟨heap', hw, hitem, hnext⟩ :=
    State.writeNext_eq (y := otherHead) (hnodes.live prevTail (List.mem_append_left N hpR))
  rw [hw] at hs hitem hnext
  have hne : ∀ y, y ≠ prevTail → ({ s with heap := heap' } : State P α).next y = s.next y :=
    fun y hy => by rw [hnext, Function.update_of_ne hy]
  subst hs
  refine ⟨?_, h.links.frame (fun _ _ _ => Iff.rfl) fun x n he => hne x ?_, ?_, ⟨?_, fun x hx => ?_⟩,
    fun _ => h.busy (by rw [hpc]; simp)⟩
  · show Nodes _ (R ++ N)
    refine hnodes.frame hitem (fun y hy => hne y ?_) rfl rfl (fun _ => .inr rfl) rfl rfl
    rintro rfl
    exact hy (List.mem_append_left N hpR)
  · rintro rfl
    exact adj_ne_last_left hnodes.nodup he hp.symm
  · -- the written node is in the other queue
    have hq := h.newQueue
    rw [hpc] at hq
    refine hq.frame rfl (fun _ => rfl) (fun x hx => hne x ?_) fun x _ => congrFun hitem x
    rintro rfl
    exact (List.nodup_append.mp hnodes.nodup).2.2 x hpR x (List.mem_of_getLast? hx) rfl
  · show s.runableQueue.head_ = _
    rw [hrun, List.head?_append]
    cases R with
    | nil => cases hpR
    | cons y R => rfl
  · obtain rfl : prevTail = x := by rw [← hp] at hx; exact Option.some.inj hx
    show ({ s with heap := heap' } : State P α).next prevTail = _
    rw [hnext, Function.update_self, hN]

theorem inv_concatHead {otherHead : Nat} {b : Bool} (h : Inv s R N)
    (hpc : s.consumer = .concatLink otherHead none)
    (hs : step s (.consume b) = some s') : Inv s' R N := by
  simp only [step, hpc, consumerStep, Option.some.injEq] at hs
  obtain ⟨-, hp, hl, hN⟩ : RunQueue s R N (.concatLink otherHead none) := hpc ▸ h.runQueue
  obtain rfl : R = [] := List.getLast?_eq_none_iff.mp hp.symm
  subst hs
  exact h.consume hpc (h.busy (by rw [hpc]; simp)) rfl rfl ⟨hN.symm, fun x hx => by cases hx⟩

/-- The two lists become one. -/
theorem inv_concatSteal {b : Bool} (h : Inv s R N) (hpc : s.consumer = .concatSteal)
    (hs : step s (.consume b) = some s') : Inv s' (R ++ N) [] := by
  simp only [step, hpc, consumerStep, Option.some.injEq] at hs
  obtain ⟨hrun, hlink⟩ : RunQueue s R N .concatSteal := hpc ▸ h.runQueue
  have hq := h.newQueue
  rw [hpc] at hq
  obtain ⟨hhead, hN, hfirst⟩ := hq.head
  have hlast : (R ++ N).getLast? = N.getLast? := by
    cases N with
    | nil => exact absurd rfl hN
    | cons y N => rw [List.getLast?_append_of_ne_nil _ (List.cons_ne_nil y N)]
  subst hs
  refine ⟨h.nodes.congr (by simp [hpc, ConsumerPc.held]) rfl rfl rfl rfl rfl rfl,
    ⟨fun o x n ho => ?_, fun x n he => ?_⟩, ⟨rfl, fun x hx => (by cases hx),
      fun x hx => (by cases hx), fun p n hn => absurd hn (hfirst p n), .inl hhead⟩,
      ⟨hrun, ?_, fun x hx => ?_⟩,
    fun _ => h.busy (by rw [hpc]; simp)⟩
  · obtain ⟨hx, he⟩ := h.links.pending o x n ho
    exact ⟨hx, adj_concat.mpr (.inl he)⟩
  · -- the link between the two lists has been written by `concatLink`
    rcases adj_concat.mp he with he | ⟨hx, hn⟩
    · exact h.links.succ x n he
    · exact .inl ((hlink x hx).trans hn)
  · rw [hlast]
    exact hq.tail
  · exact hq.last x (hlast ▸ hx)

theorem inv_concatStore {t : Option Nat} {b : Bool} (h : Inv s R N)
    (hpc : s.consumer = .concatStore t) (hs : step s (.consume b) = some s') : Inv s' R N := by
  simp only [step, hpc, consumerStep, Option.some.injEq] at hs
  obtain ⟨hrun, rfl, hl⟩ : RunQueue s R N (.concatStore t) := hpc ▸ h.runQueue
  have hidle := h.busy (by rw [hpc]; simp)
  subst hs
  refine h.consume hpc hidle rfl rfl ⟨rfl, hl, fun n hn => ?_, .inl hrun⟩
  rw [show s.enqueuing none = .link none n from hn] at hidle
  cases hidle

/-! ### `dequeue` -/

theorem inv_next {h₁ : Nat} {b : Bool} (h : Inv s R N) (hpc : s.consumer = .next h₁)
    (hs : step s (.consume b) = some s') : Inv s' R N := by
  simp only [step, hpc, consumerStep, Option.some.injEq] at hs
  obtain ⟨hrun, hl, hR⟩ : RunQueue s R N (.next h₁) := hpc ▸ h.runQueue
  rw [State.touch_eq (h.nodes.live h₁ (by simp [List.mem_of_head? hR]))] at hs
  subst hs
  exact h.consume hpc (h.busy (by rw [hpc]; simp)) rfl rfl ⟨hrun, hl, hR, fun y hy => hy⟩

/-- **The settled step.** `dequeue` takes the first node out. -/
theorem inv_cas {h₁ : Nat} {next : Option Nat} {b : Bool} (h : Inv s R N)
    (hpc : s.consumer = .cas h₁ next) (hg : Settled s (.consume b))
    (hs : step s (.consume b) = some s') : ∃ R', Inv s' R' N := by
  obtain ⟨hrun, hl, hR, hnext⟩ : RunQueue s R N (.cas h₁ next) := hpc ▸ h.runQueue
  have hidle := h.busy (by rw [hpc]; simp)
  have hhead : s.runableQueue.head_ = some h₁ := by rw [hrun]
  simp only [step, hpc, consumerStep, hhead] at hs
  cases b with
  | false =>
    -- a spurious failure reads the same head again
    simp only [Bool.false_and, Bool.false_eq_true, if_false, Option.some.injEq] at hs
    subst hs
    exact ⟨R, h.consume hpc hidle rfl rfl ⟨hrun, hl, hR⟩⟩
  | true =>
    simp only [Bool.true_and, decide_true, if_true, Option.some.injEq] at hs
    cases R with
    | nil => cases hR
    | cons y R =>
      obtain rfl : y = h₁ := Option.some.inj hR
      -- what has been read is still the link, and it is where the list goes on
      have hn : s.next y = R.head? := h.links.next_head hl fun hn => by
        cases next with
        | none => exact (hg y rfl hpc hhead).2
        | some z => rw [hnext z rfl] at hn; cases hn
      have hnx : next = R.head? := by
        rw [← hn]
        cases next with
        | none => exact (hg y rfl hpc hhead).1.symm
        | some z => exact (hnext z rfl).symm
      subst hs
      have hlast : Last s R := fun x hx => by
        apply hl x
        cases R with
        | nil => cases hx
        | cons z R => rwa [List.getLast?_cons_cons]
      refine ⟨R, h.nodes.congr (by simp [hpc, ConsumerPc.held]) rfl rfl rfl rfl rfl rfl,
        ⟨fun o x n ho => ?_, fun x n he => ?_⟩, ?_, ⟨?_, hlast, hn⟩, fun _ => hidle⟩
      · -- no thread is to write the link of the node that is taken out
        obtain ⟨hx, he⟩ := h.links.pending o x n ho
        refine ⟨hx, (adj_cons.mp he).resolve_right ?_⟩
        rintro ⟨hyx, hRn⟩
        rw [← hyx] at hx
        rw [← hn, hx] at hRn
        cases hRn
      · exact h.links.succ x n (adj_cons.mpr (.inl he))
      · have hq := h.newQueue
        rw [hpc] at hq
        exact hq.frame rfl (fun _ => rfl) (fun _ _ => rfl) fun _ _ => rfl
      · show ({ s.runableQueue with head_ := next } : Queue) = _
        rw [hrun, hnx]

theorem inv_data {h₁ : Nat} {b : Bool} (h : Inv s R N) (hpc : s.consumer = .data h₁)
    (hs : step s (.consume b) = some s') : Inv s' R N := by
  obtain ⟨hrun, hl, hn⟩ : RunQueue s R N (.data h₁) := hpc ▸ h.runQueue
  obtain ⟨node, hnode⟩ := State.exists_heap (h.nodes.live h₁ (by simp [hpc, ConsumerPc.held]))
  simp only [step, hpc, consumerStep, hnode, Option.some.injEq] at hs
  subst hs
  refine h.consume hpc (h.busy (by rw [hpc]; simp)) rfl rfl ⟨hrun, hl, hn, ?_⟩
  show (s.heap h₁).map Node.item = _
  rw [hnode]
  rfl

theorem inv_test {h₁ : Nat} {value : Option P × α} {b : Bool} (h : Inv s R N)
    (hpc : s.consumer = .test h₁ value) (hs : step s (.consume b) = some s') : Inv s' R N := by
  obtain ⟨hrun, hl, hn, hv⟩ : RunQueue s R N (.test h₁ value) := hpc ▸ h.runQueue
  have hidle := h.busy (by rw [hpc]; simp)
  simp only [step, hpc, consumerStep, Option.some.injEq] at hs
  rw [State.touch_eq (by rw [hv]; exact Option.some_ne_none _)] at hs
  subst hs
  cases R with
  | nil =>
    -- the queue looks empty and is empty
    rw [hn]
    exact h.consume hpc hidle rfl rfl ⟨by rw [hrun]; rfl, rfl, hv⟩
  | cons y R =>
    rw [hn]
    refine h.consume hpc hidle rfl rfl ⟨?_, hl, hv⟩
    rwa [List.getLast?_cons_cons] at hrun

theorem inv_clear {h₁ : Nat} {value : Option P × α} {b : Bool} (h : Inv s R N)
    (hpc : s.consumer = .clear h₁ value) (hs : step s (.consume b) = some s') : Inv s' R N := by
  obtain ⟨hhead, rfl, hv⟩ : RunQueue s R N (.clear h₁ value) := hpc ▸ h.runQueue
  simp only [step, hpc, consumerStep, Option.some.injEq] at hs
  subst hs
  refine h.consume hpc (h.busy (by rw [hpc]; simp)) rfl rfl ⟨?_, fun x hx => (by cases hx), hv⟩
  rw [hhead]
  rfl

/-- The value of the node that is freed is the caller's. -/
theorem Nodes.free {H : List Nat} {h₁ : Nat} {value : Option P × α} (h : Nodes s (h₁ :: H))
    (hv : s.item h₁ = some value) (hlink : ∀ o p n, s.enqueuing o = .link p n → n ≠ h₁) :
    Nodes { s with
      heap := Function.update s.heap h₁ none
      dequeued := s.dequeued ++ [value]
      consumer := .idle } H := by
  obtain ⟨hnot, hnd⟩ := List.nodup_cons.mp h.nodup
  have hmem : ∀ y ∈ H, y ≠ h₁ := fun y hy hyh => hnot (hyh ▸ hy)
  refine ⟨h.dangling, hnd, fun y hy => ?_, fun y hy => h.fresh y fun hn => hy ?_, fun o n ho => ?_,
    fun o p n ho => ?_, fun o => ?_⟩
  · rw [State.item_free rfl, Function.update_of_ne (hmem y hy)]
    exact h.live y (List.mem_cons_of_mem _ hy)
  · rw [State.item_free rfl]
    rcases eq_or_ne y h₁ with rfl | hne
    · rw [Function.update_self]
    · rw [Function.update_of_ne hne, hn]
  · obtain ⟨hn, hnn, hw⟩ := h.exchange o n ho
    have hne : n ≠ h₁ := fun hn' => hn (hn' ▸ List.mem_cons_self)
    rw [State.next_free rfl hne, State.item_free rfl, Function.update_of_ne hne]
    exact ⟨fun hm => hn (List.mem_cons_of_mem _ hm), hnn, hw⟩
  · rw [State.item_free rfl, Function.update_of_ne (hlink o p n ho)]
    exact h.owner o p n ho
  · -- the value moves from the first place of the queue to the last one of the dequeued
    have hacc := h.account o
    rw [State.items_congr (s := s) fun y hy => by
      rw [State.item_free rfl, Function.update_of_ne (hmem y hy)]]
    rw [show s.items (h₁ :: H) = value :: s.items H by simp [State.items, hv]] at hacc
    show _ = (s.dequeued ++ [value] ++ s.items H).filter _
    rw [List.append_assoc, List.singleton_append]
    exact hacc

/-- The node is freed and its value is the caller's. -/
theorem inv_delete {h₁ : Nat} {value : Option P × α} {b : Bool} (h : Inv s R N)
    (hpc : s.consumer = .delete h₁ value) (hs : step s (.consume b) = some s') : Inv s' R N := by
  obtain ⟨hrun, hl, hv⟩ : RunQueue s R N (.delete h₁ value) := hpc ▸ h.runQueue
  have hidle := h.busy (by rw [hpc]; simp)
  have hnodes : Nodes s (h₁ :: (R ++ N)) := by
    simpa [hpc, ConsumerPc.held] using h.nodes
  have hnot := (List.nodup_cons.mp hnodes.nodup).1
  have hmem : ∀ y ∈ R ++ N, y ≠ h₁ := fun y hy hyh => hnot (hyh ▸ hy)
  simp only [step, hpc, consumerStep, Option.some.injEq] at hs
  rw [State.touch_eq (by rw [hv]; exact Option.some_ne_none _)] at hs
  have hq := h.newQueue
  rw [hpc] at hq
  -- every node to be linked is in a queue
  have hlink : ∀ o p n, s.enqueuing o = .link p n → n ≠ h₁ := fun o p n ho => by
    cases p with
    | some x => exact hmem n (adj_mem_right (h.links.pending o x n ho).2)
    | none =>
      cases o with
      | none => rw [hidle] at ho; cases ho
      | some p => exact hmem n (List.mem_append_right R (List.mem_of_head? (hq.head.1 p n ho).2))
  subst hs
  -- the freed node is none of those that are still in a queue
  refine ⟨hnodes.free hv hlink,
    h.links.frame (fun _ _ _ => Iff.rfl) fun x n he => State.next_free rfl ?_,
    hq.frame rfl (fun _ => rfl) (fun x hx => State.next_free rfl ?_) fun x hx => ?_,
    ⟨?_, fun x hx => ?_, fun n hn => ?_, .inl ?_⟩, fun _ => hidle⟩
  · exact hmem x (adj_mem_left he)
  · exact hmem x (List.mem_append_right R (List.mem_of_getLast? hx))
  · rw [State.item_free rfl, Function.update_of_ne (hmem x (List.mem_append_right R hx))]
  · rw [show s.runableQueue = _ from hrun]
  · rw [State.next_free rfl (hmem x (List.mem_append_left N (List.mem_of_getLast? hx)))]
    exact hl x hx
  · rw [show s.enqueuing none = .link none n from hn] at hidle
    cases hidle
  · rw [show s.runableQueue = _ from hrun]

theorem inv_empty {b : Bool} (h : Inv s R N) (hpc : s.consumer = .empty)
    (hs : step s (.consume b) = some s') : Inv s' R N := by
  simp only [step, hpc, consumerStep, Option.some.injEq] at hs
  obtain ⟨hhead, rfl⟩ : RunQueue s R N .empty := hpc ▸ h.runQueue
  have hidle := h.busy (by rw [hpc]; simp)
  subst hs
  refine h.consume hpc hidle rfl rfl
    ⟨rfl, fun x hx => (by cases hx), fun n hn => ?_, .inl hhead⟩
  rw [show s.enqueuing none = .link none n from hn] at hidle
  cases hidle

/-! ### Runs -/

/-- **The step lemma.** Every settled step keeps the invariant. -/
theorem inv_step {a : Action P α} (h : Inv s R N) (hg : Settled s a)
    (hs : step s a = some s') : ∃ R' N', Inv s' R' N' := by
  cases a with
  | enqueue o v => exact ⟨R, N, inv_enqueue h hs⟩
  | run o =>
    cases hpc : s.enqueuing o with
    | idle => simp [step, hpc, enqueueStep] at hs
    | exchange n => exact inv_exchange h hpc hs
    | link p n =>
      cases p with
      | none => exact ⟨R, N, inv_store h hpc hs⟩
      | some x => exact ⟨R, N, inv_link h hpc hs⟩
  | concatenate => exact ⟨R, N, inv_concatenate h hs⟩
  | dequeue => exact ⟨R, N, inv_dequeue h hs⟩
  | consume b =>
    cases hpc : s.consumer with
    | idle => simp [step, hpc, consumerStep] at hs
    | concatTail h₁ => exact ⟨R, N, inv_concatTail h hpc hs⟩
    | concatLink h₁ prev =>
      cases prev with
      | none => exact ⟨R, N, inv_concatHead h hpc hs⟩
      | some prev => exact ⟨R, N, inv_concatLink h hpc hs⟩
    | concatSteal => exact ⟨R ++ N, [], inv_concatSteal h hpc hs⟩
    | concatStore t => exact ⟨R, N, inv_concatStore h hpc hs⟩
    | next h₁ => exact ⟨R, N, inv_next h hpc hs⟩
    | cas h₁ next =>
      obtain ⟨R', hR'⟩ := inv_cas h hpc hg hs
      exact ⟨R', N, hR'⟩
    | data h₁ => exact ⟨R, N, inv_data h hpc hs⟩
    | test h₁ value => exact ⟨R, N, inv_test h hpc hs⟩
    | clear h₁ value => exact ⟨R, N, inv_clear h hpc hs⟩
    | delete h₁ value => exact ⟨R, N, inv_delete h hpc hs⟩
    | empty => exact ⟨R, N, inv_empty h hpc hs⟩

theorem inv_initial : Inv (initial : State P α) [] [] where
  nodes := ⟨rfl, List.nodup_nil, fun x hx => (by cases hx), fun x hx => absurd rfl hx,
    fun o n ho => (by cases ho), fun o p n ho => (by cases ho), fun _ => rfl⟩
  links := ⟨fun o x n ho => (by cases ho), fun x n he => he.elim False.elim False.elim⟩
  newQueue := ⟨rfl, fun x hx => (by cases hx), fun x hx => (by cases hx),
    fun p n hn => (by cases hn), .inl rfl⟩
  runQueue := ⟨rfl, fun x hx => (by cases hx), fun n hn => (by cases hn), .inl rfl⟩
  busy := fun h => absurd rfl h

/-- **The run lemma.** -/
theorem inv_reachable (h : (system P α).ReachableUnder Settled s) : ∃ R N, Inv s R N := by
  refine h.invariant (I := fun s => ∃ R N, Inv s R N) ?_ ?_
  · rintro s rfl
    exact ⟨[], [], inv_initial⟩
  · rintro s a s' ⟨R, N, h⟩ hg hs
    exact inv_step h hg hs

/-! ### The property -/

/-- Lists that agree for every thread hold the same values. -/
theorem perm_of_filter {l m : List (Option P × α)}
    (h : ∀ o, (l.filter fun e => e.1 = o) = m.filter fun e => e.1 = o) : l.Perm m := by
  classical
  rw [List.perm_iff_count]
  intro e
  rw [← List.count_filter (p := fun f => decide (f.1 = e.1)) (by simp), h e.1,
    List.count_filter (by simp)]

/-- Between two calls following the links finds all nodes. -/
theorem Inv.reachable (h : Inv s R N) (hq : s.Quiet) :
    s.reachable = (s.items (R ++ N)).map Prod.snd := by
  obtain ⟨hc, hidle⟩ := hq
  have hnodes : Nodes s (R ++ N) := by simpa [hc, ConsumerPc.held] using h.nodes
  -- no link is pending, and the addresses bound the lengths of both walks
  have hlinked : ∀ x y, Adj R N x y → s.next x = some y := fun x y he => by
    rcases h.links.succ x y he with hx | ⟨-, o, ho⟩
    · exact hx
    · rw [hidle] at ho; cases ho
  have hlen : (R ++ N).length ≤ s.fresh :=
    State.length_le_fresh hnodes.nodup fun x hx => hnodes.fresh x (hnodes.live x hx)
  rw [List.length_append] at hlen
  obtain ⟨-, hl, -, hhead⟩ : RunQueue s R N .idle := hc ▸ h.runQueue
  have hR : s.walk s.fresh s.runableQueue.head_ = R := by
    rw [head_of_idle (hidle none) hhead]
    exact State.walk_eq (Chain.of_adjacent (fun x y hxy => hlinked x y (.inl hxy)) hl) (by omega)
  have hN : s.walk s.fresh s.newQueue.head_ = N := by
    have hq := h.newQueue
    rw [hc] at hq
    have hNhead : s.newQueue.head_ = N.head? := by
      apply hq.head.2.resolve_right
      rintro ⟨_, p, n, hn⟩
      rw [hidle] at hn
      cases hn
    rw [hNhead]
    exact State.walk_eq (Chain.of_adjacent (fun x y hxy => hlinked x y (.inr hxy)) hq.last)
      (by omega)
  rw [State.reachable, hR, hN, State.items_snd]

theorem Inv.kept (h : Inv s R N) : Kept s where
  dangling := h.nodes.dangling
  values hq := by
    rw [h.reachable hq, ← List.map_append]
    have ha := h.nodes.account
    rw [hq.1] at ha
    exact (perm_of_filter ha).map Prod.snd
  order o := by
    rw [h.nodes.account o, List.filter_append]
    exact List.prefix_append _ _

/-- **The queues keep everything** in every run in which `dequeue` never replaces the head by a null
    that a producer is about to overwrite, or has overwritten since it was read. -/
theorem settled_kept (h : (system P α).ReachableUnder Settled s) : Kept s := by
  obtain ⟨R, N, h⟩ := inv_reachable h
  exact h.kept

/-- A producer enqueues two values, the consumer takes both nodes over and dequeues them. -/
def handover : List (Action Unit Nat) :=
  [.enqueue (some ()) 1, .run (some ()), .run (some ()), .enqueue (some ()) 2, .run (some ()),
    .run (some ()), .concatenate] ++ List.replicate 4 (.consume true) ++
  .dequeue :: List.replicate 5 (.consume true) ++ .dequeue :: List.replicate 6 (.consume true)

/-- Both values of `handover` arrive. -/
theorem settled_kept_handover :
    ∃ s : State Unit Nat, s.consumer = .idle ∧ s.dequeued = [(some (), 1), (some (), 2)] ∧
      Kept s :=
  have hr : (system Unit Nat).exec initial handover = some _ := rfl
  ⟨_, rfl, rfl, settled_kept (.exec (.init rfl) (by decide) hr)⟩

end LimWebserver.LFQueue
