import LimWebserver.Base.ReclaimerMarks

namespace LimWebserver.Hazard

open LimWebserver.Lib

/-!
# Base — `HazardPointer`, marks in RAII style

* `slots` — what a thread has stored in its own hazard pointers;
* `MarkHazard`, `UnMarkHazard` — what the two functions do to them when nobody else is there, and
  `MarkHazard_sequential`: a thread among others sees just this;
* `Handles`, `Op` — the `HazardPointer` objects of a thread and what is done with them;
* `handles_iff` — each mark has exactly one object that will take it away, exactly if no object that
  has a mark has been assigned to and none has been unmarked by hand.
-/

variable {Θ P F : Type*} {s s' : State Θ P F} {θ θ' : Θ} {l : List Nat} {i : Nat} {p : P}

/-! ### One thread alone -/

/-- What a thread has stored in its hazard pointers. -/
def slots (s : State Θ P F) (θ : Θ) : List (Option P) :=
  (s.thread θ).hp_list_.map fun r => (s.heap r).ptr

/-- The index that `MarkHazard` stores at. -/
def firstFree (m : List (Option P)) : Nat := m.findIdx Option.isNone

/-- `MarkHazard` of a pointer: the index, and what is stored afterwards. -/
def MarkHazard (m : List (Option P)) (ptr : P) : Nat × List (Option P) :=
  (firstFree m, if firstFree m < m.length then m.set (firstFree m) (some ptr) else m ++ [some ptr])

/-- `UnMarkHazard` of an index. -/
def UnMarkHazard (m : List (Option P)) : Option Nat → List (Option P)
  | none => m
  | some i => m.set i none

/-- No place before the free one is free. -/
theorem eq_firstFree {m : List (Option P)} (hi : i ≤ firstFree m) (hm : m[i]? = some none) :
    firstFree m = i := by
  obtain ⟨hlt, heq⟩ := List.getElem?_eq_some_iff.mp hm
  refine Nat.le_antisymm (Nat.le_of_not_lt fun h => ?_) hi
  have := List.not_of_lt_findIdx h
  rw [heq] at this
  cases this

/-- A place that is taken is not the free one. -/
theorem lt_firstFree {m : List (Option P)} (hi : i ≤ firstFree m) (hm : m[i]? = some (some p)) :
    i < firstFree m := by
  refine Nat.lt_of_le_of_ne hi fun h => ?_
  rw [h, firstFree] at hm
  cases List.findIdx_of_getElem?_eq_some hm

/-- Behind the last place no place is free. -/
theorem firstFree_eq_length {m : List (Option P)} (hi : i ≤ firstFree m) (hm : m[i]? = none) :
    firstFree m = m.length :=
  Nat.le_antisymm List.findIdx_le_length (Nat.le_trans (List.getElem?_eq_none_iff.mp hm) hi)

/-! ### A thread among others -/

/-- The steps of other threads do not change what a thread has stored. -/
theorem slots_of_ne [DecidableEq Θ] [DecidableEq P] (hl : Inv s l) {u : Option (Call P F)}
    (he : Effect s θ' u s') (hne : θ ≠ θ') (hout : ∀ i, (s.thread θ).pc.handedOver i = false) :
    slots s' θ = slots s θ := by
  -- another thread writes its own hazard pointers, or a new one
  have hown : ∀ {r j}, (s.thread θ').hp_list_[j]? = some r →
      (s.thread θ').pc.handedOver j = false → r ∉ (s.thread θ).hp_list_ := by
    intro r j hj hout' hm
    obtain ⟨i, hi, heq⟩ := List.getElem_of_mem hm
    have hi' : (s.thread θ).hp_list_[i]? = some r := by rw [List.getElem?_eq_getElem hi, heq]
    have := hl.owns.unique _ _ _ (owner_hp hi' (hout i)) (owner_hp hj hout')
    exact hne (congrArg Prod.fst this)
  have hthread := he.thread_of_ne hne
  have hptr : ∀ r ∈ (s.thread θ).hp_list_, (s'.heap r).ptr = (s.heap r).ptr := by
    intro r hr
    cases he with
    | same | null | move | later | count | push | delete => rfl
    | @unmark j hp hu hpc hj =>
      exact ptr_writePtr_of_ne s none fun heq => hown hj (by rw [hpc]; rfl) (heq ▸ hr)
    | @store ptr j hp hpc hj =>
      exact ptr_writePtr_of_ne s _ fun heq => hown hj (by rw [hpc]; rfl) (heq ▸ hr)
    | @take ptr q hpc hflag => exact ptr_writeFlag s q r true
    | allocate hpc =>
      exact congrArg _ (Function.update_of_ne (Nat.ne_of_lt (hl.lt r (hl.hp θ r hr))) _ _)
    | @link ptr a b hpc => exact ptr_writeNext s a r b
    | @clear j hp hpc hi hptr => exact ptr_writeFlag s hp r false
  rw [slots, slots, hthread]
  exact List.map_congr_left hptr

/-- How far a call of `MarkHazard` has come in a thread that had stored `m`. -/
def Marking (m : List (Option P)) (ptr : P) (t : Reclaimer P F) (now : List (Option P)) : Prop :=
  match t.pc with
  | .searching q i => q = ptr ∧ now = m ∧ i ≤ firstFree m
  | .acquiring q | .testing q _ | .following q _ | .counting q _ | .loading q _
  | .linking q _ _ | .swapping q _ _ => q = ptr ∧ now = m ∧ firstFree m = m.length
  | .storing q i => q = ptr ∧ i = firstFree m ∧
      ((now = m ∧ i < m.length) ∨ (now = m ++ [none] ∧ i = m.length))
  | .idle => t.index = some (MarkHazard m ptr).1 ∧ now = (MarkHazard m ptr).2
  | _ => False

theorem slots_getElem? (s : State Θ P F) (θ : Θ) (i : Nat) :
    (slots s θ)[i]? = (s.thread θ).hp_list_[i]?.map fun r => (s.heap r).ptr := List.getElem?_map

section
variable [DecidableEq Θ]

/-- A thread that only moves has stored what it had. -/
theorem slots_setThread {t : Reclaimer P F} (ht : t.hp_list_ = (s.thread θ).hp_list_) :
    slots (s.setThread θ t) θ = slots s θ := by
  rw [slots, State.setThread_self, ht]
  rfl

/-- A thread gets another hazard pointer, which is empty. -/
theorem slots_acquired {r : Nat} {ptr : P} (hr : (s.heap r).ptr = none) :
    slots (acquired s θ ptr r) θ = slots s θ ++ [none] := by
  rw [slots, acquired, State.setThread_self, List.map_append, slots]
  exact congrArg _ (congrArg (fun v => [v]) hr)

omit [DecidableEq Θ] in
/-- The hazard pointers of a thread are different ones. -/
theorem hp_list_nodup (hl : Inv s l) (hout : ∀ i, (s.thread θ).pc.handedOver i = false) :
    (s.thread θ).hp_list_.Nodup := by
  rw [List.nodup_iff_injective_getElem]
  intro i j heq
  have hi : (s.thread θ).hp_list_[i.1]? = some _ := List.getElem?_eq_getElem i.2
  have hj : (s.thread θ).hp_list_[j.1]? = some _ := List.getElem?_eq_getElem j.2
  have heq : (s.thread θ).hp_list_[i.1] = (s.thread θ).hp_list_[j.1] := heq
  rw [← heq] at hj
  have := hl.owns.unique _ _ _ (owner_hp hi (hout _)) (owner_hp hj (hout _))
  exact Fin.ext (congrArg Prod.snd this)

omit [DecidableEq Θ] in
/-- A thread stores a pointer. -/
theorem slots_writePtr {r : Nat} (hnd : (s.thread θ).hp_list_.Nodup)
    (hi : (s.thread θ).hp_list_[i]? = some r) (v : Option P) :
    slots (s.writePtr r v) θ = (slots s θ).set i v := by
  refine List.ext_getElem? fun j => ?_
  rw [slots_getElem?, List.getElem?_set, slots_getElem?]
  obtain ⟨hlt, heq⟩ := List.getElem?_eq_some_iff.mp hi
  show Option.map _ ((s.thread θ).hp_list_[j]?) = _
  by_cases hij : i = j
  · subst hij
    rw [if_pos rfl, hi, if_pos (by simpa [slots] using hlt)]
    exact congrArg some (ptr_writePtr_self s r v)
  · rw [if_neg hij]
    cases hj : (s.thread θ).hp_list_[j]? with
    | none => rfl
    | some q =>
      refine congrArg some (ptr_writePtr_of_ne s v fun hqr => hij ?_)
      exact (List.getElem?_inj hlt hnd).mp (hi.trans (hqr ▸ hj.symm))

variable [DecidableEq P]

/-- The thread itself goes on. -/
theorem Marking.own {m : List (Option P)} {u : Option (Call P F)}
    (h : Marking m p (s.thread θ) (slots s θ)) (hl : Inv s l) (hs : Slots s)
    (he : Effect s θ u s') (hidle : (s.thread θ).pc ≠ .idle) :
    Marking m p (s'.thread θ) (slots s' θ) := by
  cases he with
  | same hpc | null hpc | unmark hu hpc hi | later hu hpc => exact absurd hpc hidle
  | @move pc hm =>
    have hslots : slots (s.goto θ pc) θ = slots s θ := slots_setThread (by rfl)
    rw [hslots, State.goto, State.setThread_self]
    generalize hpc : (s.thread θ).pc = pc₀ at hm hidle
    simp only [Marking, hpc] at h
    cases hm with
    | search | enter | destroy => exact absurd rfl hidle
    | full hi =>
      obtain ⟨hq, hm, hle⟩ := h
      refine ⟨hq, hm, firstFree_eq_length hle ?_⟩
      rw [← hm, slots_getElem?, hi]
      rfl
    | @free ptr i hp hi hptr =>
      obtain ⟨hq, hm, hle⟩ := h
      have hm' : m[i]? = some none := by
        rw [← hm, slots_getElem?, hi]
        exact congrArg some hptr
      exact ⟨hq, (eq_firstFree hle hm').symm, .inl ⟨hm, (List.getElem?_eq_some_iff.mp hm').1⟩⟩
    | @taken ptr ptr' i hp hi hptr =>
      obtain ⟨hq, hm, hle⟩ := h
      have hm' : m[i]? = some (some ptr') := by
        rw [← hm, slots_getElem?, hi]
        exact congrArg some hptr
      exact ⟨hq, hm, lt_firstFree hle hm'⟩
    | acquire | busy | follow | load | retry => exact h
    | _ => exact h.elim
  | @store ptr i hp hpc hi =>
    simp only [Marking, hpc] at h
    obtain ⟨rfl, rfl, hm⟩ := h
    have hnd := hp_list_nodup (θ := θ) hl (by rw [hpc]; exact fun _ => rfl)
    have hslots : slots ((s.writePtr hp (some ptr)).setThread θ { s.thread θ with
        pc := .idle
        index := some (firstFree m) }) θ = (slots s θ).set (firstFree m) (some ptr) :=
      (slots_setThread (s := s.writePtr hp (some ptr)) (by rfl)).trans
        (slots_writePtr hnd hi (some ptr))
    rw [hslots, State.setThread_self]
    refine ⟨rfl, ?_⟩
    rcases hm with ⟨hm, hlt⟩ | ⟨hm, hlen⟩
    · rw [hm, MarkHazard, if_pos hlt]
    · rw [hm, MarkHazard, if_neg (by omega), hlen]
      simp
  | @take ptr q hpc hflag =>
    simp only [Marking, hpc] at h
    obtain ⟨rfl, hm, hfull⟩ := h
    have hout : q ∉ flagged s := fun hm => by simp [(mem_flagged.mp hm).2] at hflag
    have hslots : slots (s.writeFlag q true) θ = slots s θ :=
      List.map_congr_left fun r _ => ptr_writeFlag s q r true
    rw [slots_acquired ((ptr_writeFlag s q q true).trans (hs.free q hout)), hslots, hm, acquired,
      State.setThread_self]
    have hlen : (s.thread θ).hp_list_.length = m.length := by rw [← hm, slots, List.length_map]
    exact ⟨rfl, hlen.trans hfull.symm, .inr ⟨rfl, hlen⟩⟩
  | @allocate ptr q hpc =>
    simp only [Marking, hpc] at h
    rw [State.goto, State.setThread_self]
    refine ⟨h.1, ?_, h.2.2⟩
    refine (slots_setThread (s := { s with heap := _, fresh := _ }) (by rfl)).trans
      (Eq.trans ?_ h.2.1)
    exact List.map_congr_left fun r hr =>
      congrArg _ (Function.update_of_ne (Nat.ne_of_lt (hl.lt r (hl.hp θ r hr))) _ _)
  | @count ptr a hpc =>
    simp only [Marking, hpc] at h
    rw [State.goto, State.setThread_self]
    exact ⟨h.1, (slots_setThread (s := { s with size := _ }) (by rfl)).trans h.2.1, h.2.2⟩
  | @link ptr a b hpc =>
    simp only [Marking, hpc] at h
    rw [State.goto, State.setThread_self]
    refine ⟨h.1, ?_, h.2.2⟩
    refine (slots_setThread (s := s.writeNext a b) (by rfl)).trans (Eq.trans ?_ h.2.1)
    exact List.map_congr_left fun r _ => ptr_writeNext s a r b
  | @push ptr a hpc =>
    have hnew := (hs.chosen θ).1 a (by rw [hpc]; rfl)
    simp only [Marking, hpc] at h
    obtain ⟨rfl, hm, hfull⟩ := h
    rw [slots_acquired (s := { s with head := a }) hnew, acquired, State.setThread_self]
    have hlen : (s.thread θ).hp_list_.length = m.length := by rw [← hm, slots, List.length_map]
    exact ⟨rfl, hlen.trans hfull.symm, .inr ⟨congrArg (· ++ [none]) hm, hlen⟩⟩
  | clear hpc hi hptr =>
    simp only [Marking, hpc] at h
  | delete hpc htake =>
    rcases hpc with ⟨todo, set, hpc, -⟩ | ⟨todo, q, hpc, -⟩ <;> simp only [Marking, hpc] at h

omit [DecidableEq Θ] [DecidableEq P] in
/-- A thread in `MarkHazard` has all its hazard pointers. -/
theorem Marking.handedOver {m now : List (Option P)} {t : Reclaimer P F} (h : Marking m p t now)
    (i : Nat) : t.pc.handedOver i = false := by
  unfold Marking at h
  cases hpc : t.pc <;> rw [hpc] at h <;> first | rfl | exact h.elim

/-- **Run.** A run in which the thread calls nothing else takes it on in `MarkHazard`. -/
theorem Marking.run {m : List (Option P)} {as : List (Action Θ P F)}
    (h : Marking m p (s.thread θ) (slots s θ)) (hs : (system Θ P F).Reachable s)
    (hcall : ∀ a ∈ as, ∀ c, a ≠ .call θ c) (hr : (system Θ P F).exec s as = some s') :
    Marking m p (s'.thread θ) (slots s' θ) := by
  induction as generalizing s with
  | nil => cases hr; exact h
  | cons a as ih =>
    obtain ⟨t, hst, ht⟩ := Option.bind_eq_some_iff.mp hr
    obtain ⟨ha, has⟩ := List.forall_mem_cons.mp hcall
    refine ih ?_ (.step hs trivial hst) has ht
    obtain ⟨l, hl, hslots⟩ := reachable_slots hs
    have he := step_effect hst
    by_cases hθ : a.thread = θ
    · exact h.own hl hslots (hθ ▸ he) (not_idle hst hθ ha)
    · rw [he.thread_of_ne (Ne.symm hθ), slots_of_ne hl he (Ne.symm hθ) h.handedOver]
      exact h

/-- **A thread among others.** When a thread calls `MarkHazard`, then once it is back it has stored
    the pointer where it would have alone, has been given this index, and all else that it had
    stored is as it was, whatever the other threads have done in between. -/
theorem MarkHazard_sequential {as : List (Action Θ P F)} (h : (system Θ P F).Reachable s)
    (hcall : ∀ a ∈ as, ∀ c, a ≠ .call θ c)
    (hr : (system Θ P F).exec s (.call θ (.MarkHazard (some p)) :: as) = some s')
    (hend : (s'.thread θ).pc = .idle) :
    (s'.thread θ).index = some (MarkHazard (slots s θ) p).1 ∧
      slots s' θ = (MarkHazard (slots s θ) p).2 := by
  obtain ⟨t, hst, ht⟩ := Option.bind_eq_some_iff.mp hr
  have hstart : t = s.goto θ (.searching p 0) := by
    have hst : step s (.call θ (.MarkHazard (some p))) = some t := hst
    simp only [step] at hst
    split at hst
    · cases hst; rfl
    · cases hst
  have hm : Marking (slots s θ) p (t.thread θ) (slots t θ) := by
    rw [hstart, State.goto, State.setThread_self, slots_setThread (by rfl)]
    exact ⟨rfl, rfl, Nat.zero_le _⟩
  have := hm.run (.step h trivial hst) hcall ht
  simpa only [Marking, hend] using this

theorem MarkHazard_sequential_contending : ∃ s, (system Bool Nat Unit).exec marked
      (.call true (.MarkHazard (some 7)) :: List.replicate 9 (.run true true)) = some s ∧
    (s.thread true).index = some (MarkHazard (slots marked true) 7).1 ∧
      slots s true = (MarkHazard (slots marked true) 7).2 := by
  have hr : (system Bool Nat Unit).exec marked
    (.call true (.MarkHazard (some 7)) :: List.replicate 9 (.run true true)) = some _ := rfl
  have hcall : ∀ a ∈ List.replicate 9 (Action.run (P := Nat) (F := Unit) true true),
      ∀ c, a ≠ .call true c := by simp
  exact ⟨_, hr, MarkHazard_sequential marked_reachable hcall hr rfl⟩

end

/-! ### The objects -/

/-- The `HazardPointer` objects of a thread and what the thread has stored; an object that does not
    exist has no entry, one without a mark has `HP_INDEX_NULL`. -/
structure Handles (H P : Type*) where
  index : H → Option (Option Nat)
  slots : List (Option P)

/-- What is done with the objects. -/
inductive Op (H P : Type*)
  /-- `HazardPointer h;` -/
  | default (h : H)
  /-- `HazardPointer h(reclaimer, ptr);` -/
  | construct (h : H) (ptr : Option P)
  /-- `HazardPointer h(std::move(other));` -/
  | moveConstruct (h other : H)
  /-- `h = std::move(other);` -/
  | moveAssign (h other : H)
  /-- `h.UnMark();` -/
  | UnMark (h : H)
  /-- `~HazardPointer` -/
  | destroy (h : H)
  deriving DecidableEq, Repr

variable {H : Type*} [DecidableEq H]

/-- `operator=(HazardPointer &&)`; the member of `other` is set last. -/
def assign (m : Handles H P) (h other : H) (index : Option Nat) : Handles H P :=
  { m with index := Function.update (Function.update m.index h (some index)) other (some none) }

/-- What is done with one object. -/
def Op.step (m : Handles H P) : Op H P → Option (Handles H P)
  | .default h =>
    match m.index h with
    | none => some { m with index := Function.update m.index h (some none) }
    | some _ => none
  | .construct h ptr =>
    match m.index h, ptr with
    | none, none => some { m with index := Function.update m.index h (some none) }
    | none, some ptr => some {
        index := Function.update m.index h (some (some (MarkHazard m.slots ptr).1))
        slots := (MarkHazard m.slots ptr).2 }
    | some _, _ => none
  | .moveConstruct h other =>
    match m.index h, m.index other with
    | none, some index => some (assign m h other index)
    | _, _ => none
  | .moveAssign h other =>
    match m.index h, m.index other with
    | some _, some index => some (assign m h other index)
    | _, _ => none
  | .UnMark h =>
    match m.index h with
    | some index => some { m with slots := UnMarkHazard m.slots index }
    | none => none
  | .destroy h =>
    match m.index h with
    | some index => some {
        index := Function.update m.index h none
        slots := UnMarkHazard m.slots index }
    | none => none

/-- The objects of a thread, from none and no hazard pointers on. -/
def objects (H P : Type*) [DecidableEq H] : LTS (Handles H P) (Op H P) where
  init := fun m => m = ⟨fun _ => none, []⟩
  step := Op.step

/-! ### Who takes a mark away -/

namespace Handles

/-- The indices with a mark. -/
def held (m : Handles H P) : Finset Nat :=
  (Finset.range m.slots.length).filter fun i => m.slots[i]?.join.isSome

/-- The index that an object unmarks when it is destroyed. -/
def owner (m : Handles H P) (h : H) : Option Nat := (m.index h).join

end Handles

/-- Each mark has exactly one object that will take it away, and no object will take away another
    one's. -/
def Tidy (m : Handles H P) : Prop := Owns m.held m.owner

/-- The condition on a step: no object that has a mark is assigned to or unmarked. -/
def Careful (m : Handles H P) : Op H P → Prop
  | .moveAssign h other => m.index other ≠ none → m.owner h = none
  | .UnMark h => m.owner h = none
  | _ => True

variable {m m' : Handles H P} {h other : H}

omit [DecidableEq H] in
theorem mem_held : i ∈ m.held ↔ ∃ ptr, m.slots[i]? = some (some ptr) := by
  rw [Handles.held, Finset.mem_filter, Finset.mem_range]
  constructor
  · rintro ⟨-, hs⟩
    obtain ⟨ptr, hs⟩ := Option.isSome_iff_exists.mp hs
    exact ⟨ptr, Option.join_eq_some_iff.mp hs⟩
  · rintro ⟨ptr, hs⟩
    exact ⟨(List.getElem?_eq_some_iff.mp hs).1, by rw [hs]; rfl⟩

omit [DecidableEq H] in
/-- The free place has no mark. -/
theorem firstFree_not_held : firstFree m.slots ∉ m.held := by
  rw [mem_held]
  rintro ⟨ptr, hs⟩
  cases List.findIdx_of_getElem?_eq_some hs

omit [DecidableEq H] in
/-- `MarkHazard` marks the free place. -/
theorem held_MarkHazard (m : Handles H P) (ptr : P) (f : H → Option (Option Nat)) :
    Handles.held ⟨f, (MarkHazard m.slots ptr).2⟩ = insert (MarkHazard m.slots ptr).1 m.held := by
  ext j
  rw [Finset.mem_insert, mem_held, mem_held]
  show (∃ q, (if firstFree m.slots < m.slots.length then _ else _)[j]? = _) ↔
    j = firstFree m.slots ∨ _
  split
  · next hlt =>
    rw [List.getElem?_set]
    by_cases hj : firstFree m.slots = j
    · simp [hj, hj ▸ hlt]
    · simp [hj, Ne.symm hj]
  · next hlt =>
    have hlen : firstFree m.slots = m.slots.length :=
      Nat.le_antisymm List.findIdx_le_length (Nat.le_of_not_lt hlt)
    rw [hlen, List.getElem?_append]
    split
    · next hj => simp [Nat.ne_of_lt hj]
    · next hj =>
      rw [List.getElem?_singleton, List.getElem?_eq_none (Nat.le_of_not_lt hj)]
      have hiff : j - m.slots.length = 0 ↔ j = m.slots.length := by omega
      by_cases heq : j = m.slots.length <;> simp [hiff, heq]

omit [DecidableEq H] in
/-- `UnMarkHazard` takes one mark away. -/
theorem held_UnMarkHazard (m : Handles H P) (i : Nat) (f : H → Option (Option Nat)) :
    Handles.held ⟨f, UnMarkHazard m.slots (some i)⟩ = m.held.erase i := by
  ext j
  rw [Finset.mem_erase, mem_held, mem_held]
  show (∃ q, (m.slots.set i none)[j]? = _) ↔ _
  rw [List.getElem?_set]
  by_cases hj : i = j
  · simp only [hj, if_true, ne_eq, not_true_eq_false, false_and, iff_false]
    rintro ⟨q, hq⟩
    split at hq <;> cases hq
  · rw [if_neg hj]
    simp [Ne.symm hj]

/-- Who has a mark after one object has changed. -/
theorem owner_update (m : Handles H P) (h : H) (v : Option (Option Nat)) (l : List (Option P)) :
    Handles.owner ⟨Function.update m.index h v, l⟩ = Function.update m.owner h v.join := by
  funext g
  rcases eq_or_ne g h with rfl | hne
  · simp [Handles.owner]
  · simp [Handles.owner, hne]

/-- An object without a mark that is assigned to swaps with the other one. -/
theorem owner_assign {index : Option Nat} (hother : m.index other = some index)
    (hh : m.owner h = none) : (assign m h other index).owner = m.owner ∘ Equiv.swap h other := by
  have hindex : m.owner other = index := by rw [Handles.owner, hother]; rfl
  have heq : (assign m h other index).owner =
      Function.update (Function.update m.owner h index) other none := by
    funext g
    rcases eq_or_ne g other with rfl | hne
    · simp [assign, Handles.owner]
    · rcases eq_or_ne g h with rfl | hne'
      · simp [assign, Handles.owner, hne]
      · simp [assign, Handles.owner, hne, hne']
  rw [heq]
  funext g
  rw [Function.comp_apply]
  rcases eq_or_ne g other with rfl | hne
  · rw [Function.update_self, Equiv.swap_apply_right, hh]
  · rw [Function.update_of_ne hne]
    rcases eq_or_ne g h with rfl | hne'
    · rw [Function.update_self, Equiv.swap_apply_left, hindex]
    · rw [Function.update_of_ne hne', Equiv.swap_apply_of_ne_of_ne hne' hne]

omit [DecidableEq H] in
/-- An object that does not exist has no mark. -/
theorem owner_of_none (hh : m.index h = none) : m.owner h = none := by
  rw [Handles.owner, hh]
  rfl

/-- Destroying an object takes its mark away, if it has one. -/
theorem Tidy.destroy {index : Option Nat} (ht : Tidy m) (hh : m.index h = some index) :
    Tidy ⟨Function.update m.index h none, UnMarkHazard m.slots index⟩ := by
  have hown : m.owner h = index := by rw [Handles.owner, hh]; rfl
  rw [Tidy, owner_update]
  cases index with
  | none =>
    show Owns m.held (Function.update m.owner h none)
    rw [← hown, Function.update_eq_self]
    exact ht
  | some i =>
    rw [held_UnMarkHazard]
    exact Owns.release ht hown

/-- **Step.** A careful step keeps the marks tidy. -/
theorem Tidy.step {o : Op H P} (ht : Tidy m) (hc : Careful m o) (hs : o.step m = some m') :
    Tidy m' := by
  cases o with
  | default h =>
    simp only [Op.step] at hs
    split at hs
    · next hh =>
      cases hs
      rw [Tidy, owner_update]
      show Owns m.held (Function.update m.owner h none)
      rw [← owner_of_none hh, Function.update_eq_self]
      exact ht
    · cases hs
  | construct h ptr =>
    simp only [Op.step] at hs
    split at hs
    · next hh =>
      cases hs
      rw [Tidy, owner_update]
      show Owns m.held (Function.update m.owner h none)
      rw [← owner_of_none hh, Function.update_eq_self]
      exact ht
    · next ptr hh =>
      cases hs
      rw [Tidy, owner_update, held_MarkHazard]
      exact Owns.acquire ht firstFree_not_held (owner_of_none hh)
    · cases hs
  | moveConstruct h other =>
    simp only [Op.step] at hs
    split at hs
    · next hh hother =>
      cases hs
      rw [Tidy, owner_assign hother (owner_of_none hh)]
      exact Owns.swap ht h other
    · cases hs
  | moveAssign h other =>
    simp only [Op.step] at hs
    split at hs
    · next hh hother =>
      cases hs
      rw [Tidy, owner_assign hother (hc (by rw [hother]; nofun))]
      exact Owns.swap ht h other
    · cases hs
  | UnMark h =>
    simp only [Op.step] at hs
    split at hs
    · next index hh =>
      cases hs
      have hnone : index = none := by
        have : m.owner h = none := hc
        rwa [Handles.owner, hh] at this
      subst hnone
      exact ht
    · cases hs
  | destroy h =>
    simp only [Op.step] at hs
    split at hs
    · next index hh =>
      cases hs
      exact ht.destroy hh
    · cases hs

/-- A step that is not careful leaves a mark that no object takes away, or an object whose mark is
    gone. -/
theorem Tidy.break {o : Op H P} (ht : Tidy m) (hc : ¬ Careful m o) :
    ∃ m', o.step m = some m' ∧ ¬ Tidy m' := by
  cases o with
  | moveAssign h other =>
    simp only [Careful, not_forall] at hc
    obtain ⟨hother, hh⟩ := hc
    obtain ⟨index, hother⟩ := Option.ne_none_iff_exists'.mp hother
    obtain ⟨i, hi⟩ := Option.ne_none_iff_exists'.mp hh
    have hi' : m.index h = some (some i) := Option.join_eq_some_iff.mp hi
    refine ⟨assign m h other index, by simp [Op.step, hi', hother], ?_⟩
    -- the object forgets its index
    have hleak : Leaked (assign m h other index).held (assign m h other index).owner i := by
      refine ⟨ht.mem h i hi, fun g hg => ?_⟩
      rcases eq_or_ne g other with rfl | hne
      · simp [assign, Handles.owner] at hg
      · rcases eq_or_ne g h with rfl | hne'
        · have hg : index = some i := by simpa [assign, Handles.owner, hne] using hg
          exact hne (ht.unique g other i hi (by rw [Handles.owner, hother, hg]; rfl))
        · have hg : m.owner g = some i := by simpa [assign, Handles.owner, hne, hne'] using hg
          exact hne' (ht.unique g h i hg hi)
    exact hleak.not_owns
  | UnMark h =>
    obtain ⟨i, hi⟩ := Option.ne_none_iff_exists'.mp hc
    have hi' : m.index h = some (some i) := Option.join_eq_some_iff.mp hi
    refine ⟨{ m with slots := UnMarkHazard m.slots (some i) }, by simp [Op.step, hi'],
      fun ht' => ?_⟩
    -- the object keeps the index of a mark that is gone
    have hmem := ht'.mem h i hi
    rw [held_UnMarkHazard] at hmem
    exact (Finset.mem_erase.mp hmem).1 rfl
  | _ => exact absurd trivial hc

/-- **Marks and objects.** In every state of a run each mark has exactly one object that will take
    it away, and no object will take away a mark that is not its own, exactly if in the whole run no
    object that has a mark is assigned to or unmarked by hand. -/
theorem handles_iff (ops : List (Op H P)) :
    (objects H P).Along Tidy ⟨fun _ => none, []⟩ ops ↔
      (objects H P).Guarded Careful ⟨fun _ => none, []⟩ ops := by
  refine LTS.along_iff_guarded (I := Tidy) (fun _ ht => ht)
    (fun _ _ _ ht hc hs => ht.step hc hs) (fun _ _ ht hc => ht.break hc) ?_
  exact ⟨⟨nofun, nofun⟩, by simp [Handles.held]⟩

end LimWebserver.Hazard
