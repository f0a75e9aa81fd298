import LimWebserver.Base.ReclaimerShape

namespace LimWebserver.Hazard

open LimWebserver.Lib

/-!
# Base — marks stay

* `Slots` — a hazard pointer that nobody owns, that is still to be pushed or that `MarkHazard` has
  chosen is empty; every step keeps this, as each hazard pointer has one owner;
* `Marks` — a thread that has not handed over its hazard pointer `i` has stored a pointer there;
* `marks_stay` — only `UnMarkHazard(i)` of this thread takes the mark away.
-/

variable {Θ P F : Type*} {s s' : State Θ P F} {θ θ' : Θ} {l : List Nat} {i : Nat} {p : P}

/-- A thread has a pointer marked at an index of its `hp_list_`. -/
def Marks (s : State Θ P F) (θ : Θ) (i : Nat) (p : P) : Prop :=
  (s.thread θ).pc.handedOver i = false ∧ s.GetHazardPtr θ (some i) = some p

theorem Marks.exists (h : Marks s θ i p) :
    ∃ r, (s.thread θ).hp_list_[i]? = some r ∧ (s.heap r).ptr = some p := by
  simpa [State.GetHazardPtr, Option.bind_eq_some_iff] using h.2

/-! ### What the writes do to `ptr` -/

theorem ptr_writePtr_self (s : State Θ P F) (hp : Nat) (ptr : Option P) :
    ((s.writePtr hp ptr).heap hp).ptr = ptr := by
  show (Function.update s.heap hp _ hp).ptr = _
  rw [Function.update_self]

theorem ptr_writePtr_of_ne (s : State Θ P F) {hp a : Nat} (ptr : Option P) (h : a ≠ hp) :
    ((s.writePtr hp ptr).heap a).ptr = (s.heap a).ptr := by
  show (Function.update s.heap hp _ a).ptr = _
  rw [Function.update_of_ne h]

theorem ptr_writeFlag (s : State Θ P F) (hp a : Nat) (flag : Bool) :
    ((s.writeFlag hp flag).heap a).ptr = (s.heap a).ptr := by
  show (Function.update s.heap hp _ a).ptr = _
  rcases eq_or_ne a hp with rfl | hne
  · rw [Function.update_self]
  · rw [Function.update_of_ne hne]

theorem ptr_writeNext (s : State Θ P F) (hp a b : Nat) :
    ((s.writeNext hp b).heap a).ptr = (s.heap a).ptr := by
  show (Function.update s.heap hp _ a).ptr = _
  rcases eq_or_ne a hp with rfl | hne
  · rw [Function.update_self]
  · rw [Function.update_of_ne hne]

/-! ### What is written next is empty -/

/-- What a thread that is in `MarkHazard` writes next is empty. -/
def Chosen (s : State Θ P F) (t : Reclaimer P F) : Prop :=
  (∀ a, t.pc.newHead = some a → (s.heap a).ptr = none) ∧
    ∀ ptr i hp, t.pc = .storing ptr i → t.hp_list_[i]? = some hp → (s.heap hp).ptr = none

/-- The hazard pointers that are to be written next are empty, the ones that nobody owns too. -/
structure Slots (s : State Θ P F) : Prop where
  free : ∀ a, a ∉ flagged s → (s.heap a).ptr = none
  chosen : ∀ θ, Chosen s (s.thread θ)

theorem chosen_of_idle {t : Reclaimer P F} (ht : t.pc = .idle) : Chosen s t := by
  simp [Chosen, ht, Pc.newHead]

/-- `MarkHazard` has found an empty hazard pointer. -/
theorem Move.storing [DecidableEq P] {pc : Pc P} {ptr : P} (h : Move s θ pc (.storing ptr i)) :
    ∃ hp, (s.thread θ).hp_list_[i]? = some hp ∧ (s.heap hp).ptr = none := by
  cases h with
  | free hi hptr => exact ⟨_, hi, hptr⟩

namespace Slots

variable [DecidableEq Θ]

/-- A thread moves. -/
theorem setThread (h : Slots s) {t : Reclaimer P F} (ht : Chosen s t) : Slots (s.setThread θ t) :=
  ⟨h.free, State.forall_thread (Q := Chosen s) ht h.chosen⟩

omit [DecidableEq Θ] in
/-- Some hazard pointers change, but no `ptr`. -/
theorem frame (h : Slots s) {heap : Nat → InternalHazardPointer P}
    (hptr : ∀ a, (heap a).ptr = (s.heap a).ptr)
    (hfree : ∀ a, a ∉ flagged { s with heap := heap } → (s.heap a).ptr = none) :
    Slots { s with heap := heap } :=
  ⟨fun a ha => (hptr a).trans (hfree a ha), fun θ =>
    ⟨fun a ha => (hptr a).trans ((h.chosen θ).1 a ha),
      fun ptr i hp hs hi => (hptr hp).trans ((h.chosen θ).2 ptr i hp hs hi)⟩⟩

/-- The owner of a hazard pointer writes it: no other thread was about to, as it has one owner. -/
theorem write (h : Slots s) (hl : Inv s l) {r : Nat} (hown : owner s (θ, i) = some r)
    (hr : (s.thread θ).hp_list_[i]? = some r) (v : Option P) {t : Reclaimer P F}
    (ht : t.pc = .idle) : Slots ((s.writePtr r v).setThread θ t) := by
  refine ⟨fun a ha => ?_, fun θ' => ?_⟩
  · have ha' : a ∉ flagged s := flagged_writePtr r v ▸ ha
    have hne : a ≠ r := by
      rintro rfl
      exact ha' (hl.owns.mem _ _ hown)
    exact (ptr_writePtr_of_ne s v hne).trans (h.free a ha')
  · rcases eq_or_ne θ' θ with rfl | hne
    · rw [State.setThread_self]
      exact chosen_of_idle ht
    · rw [State.setThread_of_ne _ _ hne]
      refine ⟨fun a ha => ?_, fun ptr j hp hs hj => ?_⟩
      · have har : a ≠ r := by
          rintro rfl
          exact (hl.new θ' a ha).2 (hl.hp θ a (List.mem_of_getElem? hr))
        exact (ptr_writePtr_of_ne s v har).trans ((h.chosen θ').1 a ha)
      · have har : hp ≠ r := by
          rintro rfl
          have hown' : owner s (θ', j) = some hp := owner_hp hj (by
            show (s.thread θ').pc.handedOver j = false
            rw [show (s.thread θ').pc = _ from hs]
            rfl)
          exact hne (congrArg Prod.fst (hl.owns.unique _ _ _ hown' hown))
        exact (ptr_writePtr_of_ne s v har).trans ((h.chosen θ').2 ptr j hp hs hj)

variable [DecidableEq P]

/-- **Step.** Every step keeps empty what is to be written next. -/
theorem step (h : Slots s) (hl : Inv s l) {u : Option (Call P F)} (he : Effect s θ u s') :
    Slots s' := by
  cases he with
  | same => exact h
  | null => exact h.setThread (h.chosen θ)
  | @move pc hm =>
    refine h.setThread ⟨fun a ha => (h.chosen θ).1 a (hm.newHead ▸ ha), fun ptr i hp hs hi => ?_⟩
    have hs : pc = .storing ptr i := hs
    subst hs
    obtain ⟨hp', hi', hptr⟩ := hm.storing
    obtain rfl : hp' = hp := Option.some.inj (hi'.symm.trans hi)
    exact hptr
  | @unmark i hp hu hpc hi =>
    have hown := owner_hp hi (by rw [hpc]; rfl)
    have := h.write hl hown hi none hpc
    rwa [State.setThread, show (s.writePtr hp none).thread = s.thread from rfl,
      Function.update_eq_self] at this
  | @later ptr func hu hpc =>
    have hi := h.setThread (θ := θ) (t := { s.thread θ with
      store := (s.thread θ).store.ReclaimLater ptr func }) (chosen_of_idle hpc)
    exact ⟨hi.free, hi.chosen⟩
  | @store ptr i hp hpc hi => exact h.write hl (owner_hp hi (by rw [hpc]; rfl)) hi _ rfl
  | @take ptr p hpc hflag =>
    have hp : p ∈ l := hl.cursor θ p (by rw [hpc]; rfl)
    have hout : p ∉ flagged s := fun hm => by simp [(mem_flagged.mp hm).2] at hflag
    have hmid : Slots (s.writeFlag p true) := h.frame (ptr_writeFlag s p · true) fun a ha => by
      have ha' : a ∉ flagged (s.writeFlag p true) := ha
      rw [flagged_set (hl.lt p hp)] at ha'
      exact h.free a fun hm => ha' (Finset.mem_insert_of_mem hm)
    refine hmid.setThread ⟨nofun, fun ptr' i hp' hs hi => ?_⟩
    cases hs
    -- the last one of `hp_list_` is the one just taken
    obtain rfl : p = hp' := by simpa using hi
    exact (ptr_writeFlag s p p true).trans (h.free p hout)
  | @allocate ptr p hpc =>
    have hlt : ∀ {a}, a < s.fresh → (Function.update s.heap s.fresh ⟨true, none, none⟩ a).ptr =
        (s.heap a).ptr := fun ha => by rw [Function.update_of_ne (Nat.ne_of_lt ha)]
    have hmid : Slots ({ s with
        heap := Function.update s.heap s.fresh ⟨true, none, none⟩
        fresh := s.fresh + 1 } : State Θ P F) := by
      refine ⟨fun a ha => ?_, fun θ' => ⟨fun a ha => ?_, fun ptr' i hp hs hi => ?_⟩⟩
      · rw [flagged_allocate, Finset.mem_insert, not_or] at ha
        exact (congrArg _ (Function.update_of_ne ha.1 _ _)).trans (h.free a ha.2)
      · exact (hlt (hl.new θ' a ha).1).trans ((h.chosen θ').1 a ha)
      · exact (hlt (hl.lt hp (hl.hp θ' hp (List.mem_of_getElem? hi)))).trans
          ((h.chosen θ').2 ptr' i hp hs hi)
    refine hmid.setThread ⟨fun a ha => ?_, nofun⟩
    cases ha
    show (Function.update s.heap s.fresh _ s.fresh).ptr = none
    rw [Function.update_self]
  | @count ptr a hpc =>
    have hi := h.setThread (θ := θ) (t := { s.thread θ with pc := .loading ptr a })
      ⟨fun b hb => (h.chosen θ).1 b (by rw [hpc]; exact hb), nofun⟩
    exact ⟨hi.free, hi.chosen⟩
  | @link ptr a b hpc =>
    have hmid : Slots (s.writeNext a b) := h.frame (ptr_writeNext s a · b) fun c hc =>
      h.free c fun hm => hc (by rw [← flagged_writeNext a b] at hm; exact hm)
    refine hmid.setThread ⟨fun c hc => ?_, nofun⟩
    exact (ptr_writeNext s a c b).trans ((h.chosen θ).1 c (by rw [hpc]; exact hc))
  | @push ptr a hpc =>
    have hmid : Slots ({ s with head := a } : State Θ P F) := ⟨h.free, h.chosen⟩
    refine hmid.setThread ⟨nofun, fun ptr' i hp hs hi => ?_⟩
    cases hs
    obtain rfl : a = hp := by simpa using hi
    exact (h.chosen θ).1 a (by rw [hpc]; rfl)
  | @clear i hp hpc hi hptr =>
    have hmid : Slots (s.writeFlag hp false) := h.frame (ptr_writeFlag s hp · false) fun a ha => by
      have ha' : a ∉ flagged (s.writeFlag hp false) := ha
      rw [flagged_clear, Finset.mem_erase, not_and] at ha'
      by_cases heq : a = hp
      · exact heq ▸ hptr
      · exact h.free a (ha' heq)
    exact hmid.setThread ⟨nofun, nofun⟩
  | @delete push key pc c store hpc htake =>
    have hpcs : pc.newHead = none ∧ ∀ ptr i, pc ≠ .storing ptr i := by
      rcases hpc with ⟨todo, set, -, -, -, rfl⟩ | ⟨todo, p, -, -, rfl⟩ <;> exact ⟨rfl, nofun⟩
    have hi := h.setThread (θ := θ) (t := { s.thread θ with store := store, pc := pc })
      ⟨by rw [hpcs.1]; nofun, fun ptr i hp hs => absurd hs (hpcs.2 ptr i)⟩
    exact ⟨hi.free, hi.chosen⟩

omit [DecidableEq Θ] [DecidableEq P] in
theorem initial : Slots (Hazard.initial : State Θ P F) where
  free := fun _ _ => rfl
  chosen := fun _ => chosen_of_idle rfl

end Slots

/-- **Run.** In every reachable state the hazard pointers are in order, and the ones that are to be
    written next are empty. -/
theorem reachable_slots [DecidableEq Θ] [DecidableEq P] {G : State Θ P F → Action Θ P F → Prop}
    (h : (system Θ P F).ReachableUnder G s) : ∃ l, Inv s l ∧ Slots s := by
  refine h.invariant (I := fun s => ∃ l, Inv s l ∧ Slots s) ?_ ?_
  · rintro _ rfl
    exact ⟨[0], .initial, .initial⟩
  · rintro s a s' ⟨l, hl, h⟩ - hs
    have he := step_effect hs
    obtain ⟨l', hl', -⟩ := hl.step he
    exact ⟨l', hl', h.step hl he⟩

/-! ### Marks stay -/

/-- A thread has the hazard pointer `r` at an index, and has not handed it over. -/
def Reclaimer.Has (t : Reclaimer P F) (i r : Nat) : Prop :=
  t.pc.handedOver i = false ∧ t.hp_list_[i]? = some r

/-- The hazard pointer that a thread has at an index is `r`, and it marks `p`. -/
def Holds (s : State Θ P F) (θ : Θ) (i r : Nat) (p : P) : Prop :=
  (s.thread θ).Has i r ∧ (s.heap r).ptr = some p

theorem marks_iff : Marks s θ i p ↔ ∃ r, Holds s θ i r p := by
  constructor
  · intro h
    obtain ⟨r, hr, hp⟩ := h.exists
    exact ⟨r, ⟨h.1, hr⟩, hp⟩
  · rintro ⟨r, ⟨hout, hr⟩, hp⟩
    refine ⟨hout, ?_⟩
    show ((s.thread θ).hp_list_[i]?).bind _ = _
    rw [hr]
    exact hp

/-- A thread that gets another hazard pointer has the ones it had. -/
theorem Reclaimer.Has.append {t : Reclaimer P F} {r a : Nat} (h : t.Has i r) {ptr : P} {n : Nat} :
    Reclaimer.Has { t with hp_list_ := t.hp_list_ ++ [a], pc := .storing ptr n } i r :=
  ⟨rfl, (List.getElem?_append_left (List.getElem?_eq_some_iff.mp h.2).1).trans h.2⟩

section
variable [DecidableEq Θ]

/-- A thread has its hazard pointer after some thread has moved. -/
theorem Reclaimer.Has.setThread {r : Nat} (h : (s.thread θ).Has i r) {t : Reclaimer P F}
    (ht : θ' = θ → t.Has i r) : ((s.setThread θ' t).thread θ).Has i r := by
  rcases eq_or_ne θ θ' with rfl | hne
  · rw [State.setThread_self]
    exact ht rfl
  · rwa [State.setThread_of_ne s t hne]

variable [DecidableEq P]

/-- **Step.** No step takes a mark away but an `UnMarkHazard` of its own thread and index. -/
theorem Holds.after {r : Nat} (h : Holds s θ i r p) (hl : Inv s l) (hs : Slots s)
    {u : Option (Call P F)} (he : Effect s θ' u s')
    (hu : θ' = θ → u ≠ some (.UnMarkHazard (some i))) : Holds s' θ i r p := by
  obtain ⟨hr, hp⟩ := h
  have hown : owner s (θ, i) = some r := owner_hp hr.2 hr.1
  have hmem : r ∈ l := hl.hp θ r (List.mem_of_getElem? hr.2)
  cases he with
  | same => exact ⟨hr, hp⟩
  | null => exact ⟨hr.setThread fun heq => heq ▸ hr, hp⟩
  | move hm =>
    refine ⟨hr.setThread fun heq => ?_, hp⟩
    subst heq
    exact ⟨(hm.handedOver (.inl (List.getElem?_eq_some_iff.mp hr.2).1)).trans hr.1, hr.2⟩
  | @unmark j hp' hu' hpc hj =>
    have hne : r ≠ hp' := by
      rintro rfl
      have heq := hl.owns.unique _ _ _ (owner_hp hj (by rw [hpc]; rfl)) hown
      rw [Prod.mk.injEq] at heq
      exact hu heq.1 (heq.2 ▸ hu')
    exact ⟨hr, (ptr_writePtr_of_ne s none hne).trans hp⟩
  | @later ptr func hu hpc => exact ⟨hr.setThread fun heq => heq ▸ hr, hp⟩
  | @store ptr j hp' hpc hj =>
    have hne : r ≠ hp' := by
      rintro rfl
      have := (hs.chosen θ').2 ptr j r hpc hj
      rw [hp] at this
      cases this
    refine ⟨Reclaimer.Has.setThread (s := s.writePtr hp' (some ptr)) hr fun heq => ?_,
      (ptr_writePtr_of_ne s (some ptr) hne).trans hp⟩
    subst heq
    exact ⟨rfl, hr.2⟩
  | @take ptr q hpc hflag =>
    refine ⟨Reclaimer.Has.setThread (s := s.writeFlag q true) hr fun heq => ?_,
      (ptr_writeFlag s q r true).trans hp⟩
    subst heq
    exact hr.append
  | @allocate ptr q hpc =>
    have hne : r ≠ s.fresh := Nat.ne_of_lt (hl.lt r hmem)
    refine ⟨?_, (congrArg _ (Function.update_of_ne hne _ _)).trans hp⟩
    refine Reclaimer.Has.setThread (s := { s with heap := _, fresh := _ }) hr fun heq => ?_
    subst heq
    exact ⟨rfl, hr.2⟩
  | @count ptr a hpc =>
    refine ⟨?_, hp⟩
    refine Reclaimer.Has.setThread (s := { s with size := _ }) hr fun heq => ?_
    subst heq
    exact ⟨rfl, hr.2⟩
  | @link ptr a b hpc =>
    refine ⟨?_, (ptr_writeNext s a r b).trans hp⟩
    refine Reclaimer.Has.setThread (s := s.writeNext a b) hr fun heq => ?_
    subst heq
    exact ⟨rfl, hr.2⟩
  | @push ptr a hpc =>
    refine ⟨?_, hp⟩
    refine Reclaimer.Has.setThread (s := { s with head := a }) hr fun heq => ?_
    subst heq
    exact hr.append
  | @clear j hp' hpc hj hptr =>
    refine ⟨?_, (ptr_writeFlag s hp' r false).trans hp⟩
    refine Reclaimer.Has.setThread (s := s.writeFlag hp' false) hr fun heq => ?_
    subst heq
    -- a destructor that comes to a marked hazard pointer goes no further
    have hne : i ≠ j := by
      rintro rfl
      rw [Option.some.inj (hr.2.symm.trans hj), hptr] at hp
      cases hp
    have hij : ¬ i < j := by
      have := hr.1
      rw [hpc] at this
      simpa [Pc.handedOver] using this
    exact ⟨by simp only [Pc.handedOver, decide_eq_false_iff_not]; omega, hr.2⟩
  | @delete push key pc c store hpc htake =>
    refine ⟨hr.setThread fun heq => ?_, hp⟩
    subst heq
    rcases hpc with ⟨todo, set, -, -, -, rfl⟩ | ⟨todo, q, hpc, -, -⟩
    · exact ⟨rfl, hr.2⟩
    · have := hr.1
      rw [hpc] at this
      cases this

/-- In a reachable state a mark outlives every step but an `UnMarkHazard` of its own. -/
theorem Holds.after_step {a : Action Θ P F} {r : Nat} (h : Holds s θ i r p) (hl : Inv s l)
    (hslots : Slots s) (hs : step s a = some s') (hu : a ≠ .call θ (.UnMarkHazard (some i))) :
    Holds s' θ i r p := by
  refine h.after hl hslots (step_effect hs) fun heq hi => hu ?_
  rw [← heq]
  exact Action.eq_call hi

/-- **Marks stay.** From any reachable state on, whatever the threads do, a marked pointer stays
    marked at its index until this thread calls `UnMarkHazard` with it. -/
theorem marks_stay {as : List (Action Θ P F)} (h : (system Θ P F).Reachable s)
    (hm : Marks s θ i p) (hu : ∀ a ∈ as, a ≠ .call θ (.UnMarkHazard (some i)))
    (hr : (system Θ P F).exec s as = some s') : Marks s' θ i p := by
  induction as generalizing s with
  | nil => cases hr; exact hm
  | cons a as ih =>
    obtain ⟨t, hs, ht⟩ := Option.bind_eq_some_iff.mp hr
    obtain ⟨ha, has⟩ := List.forall_mem_cons.mp hu
    obtain ⟨l, hl, hslots⟩ := reachable_slots h
    obtain ⟨r, hr⟩ := marks_iff.mp hm
    exact ih (.step h trivial hs) (marks_iff.mpr ⟨r, hr.after_step hl hslots hs ha⟩) has ht

theorem marked_marks : Marks marked false 0 7 := ⟨rfl, rfl⟩

/-- Another thread marks the pointer too, for which it makes a hazard pointer of its own, and
    unmarks it. -/
def contending : List (Action Bool Nat Unit) :=
  .call true (.MarkHazard (some 7)) :: List.replicate 9 (.run true true) ++
    [.call true (.UnMarkHazard (some 0))]

theorem marks_stay_contending :
    ∃ s, (system Bool Nat Unit).exec marked contending = some s ∧ Marks s false 0 7 := by
  have hr : (system Bool Nat Unit).exec marked contending = some _ := rfl
  exact ⟨_, hr, marks_stay marked_reachable marked_marks (by decide) hr⟩

end

end LimWebserver.Hazard
