import LimWebserver.Base.ReclaimerStep

namespace LimWebserver.Hazard

open LimWebserver.Lib

/-!
# Base — every retired pointer is deleted once or waits

* `retiredBy`, `deletedBy` — what a thread has handed to `ReclaimLater`, and its calls of
  `delete_func`;
* `Booked` — what a step does to these two and to what waits;
* `accounted_iff` — the account is balanced in all threads exactly if no thread has handed over a
  pointer that was waiting in its own `reclaim_map_`; the function of such a call is lost.
-/

variable {Θ P F : Type*} [DecidableEq Θ] {s s' : State Θ P F} {θ θ' : Θ}

/-- What a thread has handed to `ReclaimLater`. -/
def retiredBy (s : State Θ P F) (θ : Θ) : List (P × F) :=
  (s.retired.filter fun e => e.1 = θ).map Prod.snd

/-- What a thread has called `delete_func` with. -/
def deletedBy (s : State Θ P F) (θ : Θ) : List (P × F) :=
  (s.deleted.filter fun e => e.1 = θ).map Prod.snd

/-- Whatever a thread has handed over has been deleted, or waits, and nothing else. -/
def Accounted (s : State Θ P F) : Prop :=
  ∀ θ, (retiredBy s θ).Perm (deletedBy s θ ++ (s.thread θ).store.pending)

variable [DecidableEq P]

/-- The condition on a step: no pointer is handed over that waits in the same thread. -/
def Fresh (s : State Θ P F) (a : Action Θ P F) : Prop :=
  ∀ ptr func, a = .call a.thread (.ReclaimLater ptr func) → ptr ∉ (s.thread a.thread).store.keys

/-- What a step does to the account of a thread. -/
inductive Booked (s : State Θ P F) (a : Action Θ P F) (s' : State Θ P F) (θ : Θ) : Prop
  | same (hf : a.thread = θ → Fresh s a) (hr : retiredBy s' θ = retiredBy s θ)
      (hd : deletedBy s' θ = deletedBy s θ)
      (hw : (s'.thread θ).store.pending = (s.thread θ).store.pending)
  | later {c : P × F} (hf : Fresh s a) (hr : retiredBy s' θ = c :: retiredBy s θ)
      (hd : deletedBy s' θ = deletedBy s θ)
      (hw : (s'.thread θ).store.pending = (s.thread θ).store.pending ++ [c])
  | dropped {c : P × F} (hf : ¬ Fresh s a) (hr : retiredBy s' θ = c :: retiredBy s θ)
      (hd : deletedBy s' θ = deletedBy s θ)
      (hw : (s'.thread θ).store.pending = (s.thread θ).store.pending)
  | delete {c : P × F} (hf : Fresh s a) (hr : retiredBy s' θ = retiredBy s θ)
      (hd : deletedBy s' θ = c :: deletedBy s θ)
      (hw : (s.thread θ).store.pending.Perm (c :: (s'.thread θ).store.pending))

omit [DecidableEq P] in
/-- A step that changes neither the two logs nor what waits. -/
theorem booked_same {a : Action Θ P F} (hf : a.thread = θ → Fresh s a)
    (hr : s'.retired = s.retired) (hd : s'.deleted = s.deleted)
    (hw : (s'.thread θ).store = (s.thread θ).store) : Booked s a s' θ :=
  .same hf (by rw [retiredBy, hr]; rfl) (by rw [deletedBy, hd]; rfl) (by rw [hw])

omit [DecidableEq P] in
/-- A thread that moves keeps what waits in it. -/
theorem store_setThread (u : State Θ P F) {t : Reclaimer P F} (ht : t.store = (u.thread θ').store)
    (θ : Θ) : ((u.setThread θ' t).thread θ).store = (u.thread θ).store := by
  rcases eq_or_ne θ θ' with rfl | hne
  · rw [State.setThread_self, ht]
  · rw [State.setThread_of_ne u t hne]

/-- `ReclaimLater`. -/
theorem later_booked {ptr : P} {func : F}
    (hs : step s (.call θ' (.ReclaimLater ptr func)) = some s') (θ : Θ) :
    Booked s (.call θ' (.ReclaimLater ptr func)) s' θ := by
  simp only [step] at hs
  split at hs
  · cases hs
    rcases eq_or_ne θ θ' with rfl | hne
    · have hr : retiredBy (State.mk s.heap s.fresh s.head s.size (Function.update s.thread θ
          { s.thread θ with store := (s.thread θ).store.ReclaimLater ptr func })
          ((θ, ptr, func) :: s.retired) s.deleted) θ = (ptr, func) :: retiredBy s θ := by
        simp [retiredBy]
      have hstore : ((s.setThread θ { s.thread θ with
          store := (s.thread θ).store.ReclaimLater ptr func }).thread θ).store =
            (s.thread θ).store.ReclaimLater ptr func := by rw [State.setThread_self]
      by_cases hin : ptr ∈ (s.thread θ).store.keys
      · refine .dropped (fun hf => hf ptr func rfl hin) hr rfl ?_
        exact (congrArg (fun t : ReclaimStore P F => t.pending) hstore).trans
            ((s.thread θ).store.ok.pending_of_mem hin func)
      · refine .later (fun _ _ heq => ?_) hr rfl ?_
        · cases heq
          exact hin
        · exact (congrArg (fun t : ReclaimStore P F => t.pending) hstore).trans
            ((s.thread θ).store.ok.pending_of_not_mem hin func)
    · refine .same (fun heq => absurd heq.symm hne) ?_ rfl ?_
      · simp [retiredBy, hne.symm]
      · exact congrArg (fun t : Reclaimer P F => t.store.pending) (State.setThread_of_ne s _ hne)
  · cases hs

/-- **Step.** What a step does to the account of each thread. -/
theorem step_booked {a : Action Θ P F} (hs : step s a = some s') (θ : Θ) : Booked s a s' θ := by
  by_cases hl : ∃ ptr func, a.called = some (.ReclaimLater ptr func)
  · obtain ⟨ptr, func, hl⟩ := hl
    have ha := Action.eq_call hl
    rw [ha] at hs ⊢
    exact later_booked hs θ
  · have hf : Fresh s a := fun ptr func heq => (hl ⟨ptr, func, by rw [heq]; rfl⟩).elim
    have he := step_effect hs
    generalize a.thread = θ' at he hf ⊢
    cases he with
    | same => exact booked_same (fun _ => hf) rfl rfl rfl
    | null => exact booked_same (fun _ => hf) rfl rfl (store_setThread s (by rfl) θ)
    | move hm => exact booked_same (fun _ => hf) rfl rfl (store_setThread s (by rfl) θ)
    | unmark => exact booked_same (fun _ => hf) rfl rfl rfl
    | later hu => exact (hl ⟨_, _, hu⟩).elim
    | @store ptr i hp hpc hi =>
      exact booked_same (fun _ => hf) rfl rfl
        (store_setThread (s.writePtr hp (some ptr)) (by rfl) θ)
    | @take ptr q hpc hflag =>
      exact booked_same (fun _ => hf) rfl rfl (store_setThread (s.writeFlag q true) (by rfl) θ)
    | allocate hpc =>
      exact booked_same (fun _ => hf) rfl rfl
        (store_setThread { s with heap := _, fresh := _ } (by rfl) θ)
    | count hpc =>
      exact booked_same (fun _ => hf) rfl rfl (store_setThread { s with size := _ } (by rfl) θ)
    | @link ptr b c hpc =>
      exact booked_same (fun _ => hf) rfl rfl (store_setThread (s.writeNext b c) (by rfl) θ)
    | @push ptr b hpc =>
      exact booked_same (fun _ => hf) rfl rfl (store_setThread { s with head := b } (by rfl) θ)
    | @clear j hp hpc hi hptr =>
      exact booked_same (fun _ => hf) rfl rfl (store_setThread (s.writeFlag hp false) (by rfl) θ)
    | @delete push key pc c store hpc htake =>
      rcases eq_or_ne θ θ' with rfl | hne
      · refine .delete (c := c) hf rfl (by simp [deletedBy]) ?_
        rw [show _ = _ from State.setThread_self s θ _]
        exact ReclaimStore.pending_take htake
      · refine .same (fun _ => hf) rfl (by simp [deletedBy, hne.symm]) ?_
        exact congrArg (fun t : Reclaimer P F => t.store.pending) (State.setThread_of_ne s _ hne)

/-! ### The account -/

/-- A thread has handed over more than has been deleted and waits. -/
def Short (s : State Θ P F) : Prop :=
  ∃ θ, (deletedBy s θ).length + (s.thread θ).store.pending.length < (retiredBy s θ).length

omit [DecidableEq P] in
theorem Short.not_accounted (h : Short s) : ¬ Accounted s := by
  obtain ⟨θ, h⟩ := h
  intro hacc
  have := (hacc θ).length_eq
  rw [List.length_append] at this
  omega

/-- What is lost stays lost. -/
theorem Short.step {a : Action Θ P F} (h : Short s) (hs : Hazard.step s a = some s') :
    Short s' := by
  obtain ⟨θ, h⟩ := h
  refine ⟨θ, ?_⟩
  cases step_booked hs θ with
  | same hf hr hd hw => rwa [hr, hd, hw]
  | later hf hr hd hw =>
    simp only [hr, hd, hw, List.length_append, List.length_cons, List.length_nil]
    omega
  | dropped hf hr hd hw =>
    rw [hr, hd, hw, List.length_cons]
    omega
  | delete hf hr hd hw =>
    have := hw.length_eq
    rw [List.length_cons] at this
    rw [hr, hd, List.length_cons]
    omega

/-- A step with a pointer that does not wait keeps the account balanced. -/
theorem Accounted.step {a : Action Θ P F} (h : Accounted s) (hf : Fresh s a)
    (hs : Hazard.step s a = some s') : Accounted s' := by
  intro θ
  cases step_booked hs θ with
  | same _ hr hd hw =>
    rw [hr, hd, hw]
    exact h θ
  | later _ hr hd hw =>
    rw [hr, hd, hw, ← List.append_assoc]
    exact ((h θ).cons _).trans (List.perm_append_singleton _ _).symm
  | dropped hn => exact absurd hf hn
  | delete _ hr hd hw =>
    rw [hr, hd]
    exact ((h θ).trans (hw.append_left _)).trans List.perm_middle

/-- A step with a pointer that waits loses its function. -/
theorem Accounted.lose {a : Action Θ P F} (h : Accounted s) (hf : ¬ Fresh s a)
    (hs : Hazard.step s a = some s') : Short s' := by
  refine ⟨a.thread, ?_⟩
  have hlen := (h a.thread).length_eq
  rw [List.length_append] at hlen
  cases step_booked hs a.thread with
  | same hf' => exact absurd (hf' rfl) hf
  | later hf' | delete hf' => exact absurd hf' hf
  | dropped _ hr hd hw =>
    rw [hr, hd, hw, List.length_cons]
    omega

/-- **Exactly once.** After any run, what each thread has handed to `ReclaimLater` has been deleted
    by it, once and with its own function, or still waits, exactly if in the whole run no thread has
    handed over a pointer that was waiting in its own `reclaim_map_`. -/
theorem accounted_iff {as : List (Action Θ P F)}
    (hr : (system Θ P F).exec initial as = some s) :
    Accounted s ↔ (system Θ P F).Guarded Fresh initial as := by
  refine LTS.safe_iff_guarded (I := Accounted) (S := Accounted) (B := Short) (fun _ h => h)
    (fun _ h => h.not_accounted) (fun _ _ _ h hf hs => h.step hf hs)
    (fun _ _ _ h hf hs => h.lose hf hs) (fun _ _ _ h hs => h.step hs) ?_ hr
  exact fun θ => by simp [retiredBy, deletedBy, initial, ReclaimStore.initial,
    ReclaimNodes.pending, ReclaimNodes.initial]

/-- The pointer 7 is handed over twice, and the second function is lost. -/
theorem accounted_iff_twice : ∃ s, (system Unit Nat Bool).exec initial
      [.call () (.ReclaimLater 7 true), .call () (.ReclaimLater 7 false)] = some s ∧
    (Accounted s ↔ (system Unit Nat Bool).Guarded Fresh initial
      [.call () (.ReclaimLater 7 true), .call () (.ReclaimLater 7 false)]) := by
  have hr : (system Unit Nat Bool).exec initial
    [.call () (.ReclaimLater 7 true), .call () (.ReclaimLater 7 false)] = some _ := rfl
  exact ⟨_, hr, accounted_iff hr⟩

end LimWebserver.Hazard
