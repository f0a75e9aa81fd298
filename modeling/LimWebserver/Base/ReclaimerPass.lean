import LimWebserver.Base.ReclaimerMarks
import Mathlib.Data.Finset.Card

namespace LimWebserver.Hazard

open LimWebserver.Lib

/-!
# Base — what a pass of `ReclaimNoHazardPointer` achieves

* `Sized` — what `size` counts;
* `Pass` — what a thread has found after a part of its pass;
* `few_wait` — when `ReclaimNoHazardPointer` returns, few pointers wait;
* `unmarked_deleted` — what nobody marks during a pass is deleted by it;
* `pass_wait_free` — the steps of a pass are bounded, whatever the other threads do.
-/

variable {Θ P F : Type*} {s s' : State Θ P F} {θ θ' : Θ} {l l' : List Nat} {p : P}

/-! ### What `size` counts -/

/-- A thread has counted the hazard pointer that it has not pushed yet. -/
def Pc.counted : Pc P → Bool
  | .loading _ _ | .linking _ _ _ | .swapping _ _ _ => true
  | _ => false

/-- `size` counts the hazard pointers but the first one, and what threads are about to push. -/
def Sized (s : State Θ P F) (l : List Nat) : Prop :=
  ∃ S : Finset Θ, (∀ θ, θ ∈ S ↔ (s.thread θ).pc.counted) ∧ l.length + S.card = s.size + 1

/-- A step that is no push leaves the list as it is. -/
theorem Grows.eq (h : Grows s s' l l') (hs : Inv s l) (hs' : Inv s' l') (hhead : s'.head = s.head) :
    l' = l := by
  rcases h with ⟨rfl, -⟩ | rfl
  · rfl
  · exact absurd (hhead ▸ hs.head_mem) (List.nodup_cons.mp hs'.nodup).1

section
variable [DecidableEq Θ] [DecidableEq P]

omit [DecidableEq Θ] in
theorem Move.counted {pc pc' : Pc P} (h : Move s θ pc pc') : pc'.counted = pc.counted := by
  cases h <;> rfl

omit [DecidableEq P] in
/-- Moving one thread without counting or pushing. -/
theorem Sized.setThread (h : Sized s l) {t : Reclaimer P F}
    (ht : t.pc.counted = (s.thread θ).pc.counted) : Sized (s.setThread θ t) l := by
  obtain ⟨S, hS, hcard⟩ := h
  refine ⟨S, fun θ' => ?_, hcard⟩
  rcases eq_or_ne θ' θ with rfl | hne
  · rw [State.setThread_self, ht]
    exact hS θ'
  · rw [State.setThread_of_ne s t hne]
    exact hS θ'

/-- **Step.** Every step keeps what `size` counts. -/
theorem Sized.step (h : Sized s l) (hs : Inv s l) {u : Option (Call P F)} (he : Effect s θ u s')
    (hs' : Inv s' l') (hg : Grows s s' l l') : Sized s' l' := by
  have hstay : s'.head = s.head → l' = l := hg.eq hs hs'
  cases he with
  | same => exact hstay rfl ▸ h
  | null => exact hstay rfl ▸ h.setThread rfl
  | move hm => exact hstay rfl ▸ h.setThread hm.counted
  | unmark hu hpc hi => exact hstay rfl ▸ h
  | @later ptr func hu hpc =>
    exact hstay rfl ▸ h.setThread (t := { s.thread θ with
      store := (s.thread θ).store.ReclaimLater ptr func }) rfl
  | @store ptr i hp hpc hi =>
    exact hstay rfl ▸ Sized.setThread (s := s.writePtr hp (some ptr)) h
      (show false = (s.thread θ).pc.counted by rw [hpc]; rfl)
  | @take ptr q hpc hflag =>
    exact hstay rfl ▸ Sized.setThread (s := s.writeFlag q true) h
      (show false = (s.thread θ).pc.counted by rw [hpc]; rfl)
  | allocate hpc =>
    exact hstay rfl ▸ Sized.setThread (s := { s with heap := _, fresh := _ }) h
      (show false = (s.thread θ).pc.counted by rw [hpc]; rfl)
  | @count ptr a hpc =>
    obtain ⟨S, hS, hcard⟩ := h
    have hout : θ ∉ S := fun hm => by
      have := (hS θ).mp hm
      rw [hpc] at this
      cases this
    refine hstay rfl ▸ ⟨insert θ S, fun θ' => ?_, ?_⟩
    · rcases eq_or_ne θ' θ with rfl | hne
      · rw [State.goto, State.setThread_self]
        simp [Pc.counted]
      · rw [State.goto, State.setThread_of_ne _ _ hne, Finset.mem_insert]
        simp only [hne, false_or]
        exact hS θ'
    · rw [Finset.card_insert_of_notMem hout, ← Nat.add_assoc, hcard]
      rfl
  | @link ptr a b hpc =>
    exact hstay rfl ▸ Sized.setThread (s := s.writeNext a b) h
      (show true = (s.thread θ).pc.counted by rw [hpc]; rfl)
  | @push ptr a hpc =>
    have hlist : l' = a :: l := by
      rcases hg with ⟨-, hhead⟩ | hlist
      · have hout := (hs.new θ a (by rw [hpc]; rfl)).2
        exact absurd ((show a = s.head from hhead) ▸ hs.head_mem) hout
      · exact hlist
    obtain ⟨S, hS, hcard⟩ := h
    have hin : θ ∈ S := (hS θ).mpr (by rw [hpc]; rfl)
    refine ⟨S.erase θ, fun θ' => ?_, ?_⟩
    · rcases eq_or_ne θ' θ with rfl | hne
      · rw [acquired, State.setThread_self]
        simp [Pc.counted]
      · rw [acquired, State.setThread_of_ne _ _ hne, Finset.mem_erase]
        simp only [ne_eq, hne, not_false_eq_true, true_and]
        exact hS θ'
    · have := Finset.card_erase_add_one hin
      show l'.length + (S.erase θ).card = s.size + 1
      rw [hlist, List.length_cons]
      omega
  | @clear j hp hpc hi hptr =>
    exact hstay rfl ▸ Sized.setThread (s := s.writeFlag hp false) h
      (show false = (s.thread θ).pc.counted by rw [hpc]; rfl)
  | @delete push key pc c store hpc htake =>
    have hcount : pc.counted = (s.thread θ).pc.counted := by
      rcases hpc with ⟨todo, set, hpc, -, -, rfl⟩ | ⟨todo, q, hpc, -, rfl⟩ <;> rw [hpc] <;> rfl
    exact hstay rfl ▸ h.setThread (t := { s.thread θ with store := store, pc := pc }) hcount

end

/-! ### The invariant of a pass -/

/-- What a thread with these keys has found at this point of its pass: no more pointers than hazard
    pointers that it has visited, and at the end all keys but the ones that it has dealt with. -/
def Pc.Passed (l : List Nat) (keys : List P) : Pc P → Prop
  | .scanning c set => ∃ m, c :: m <:+ l ∧ set.length + m.length + 1 ≤ l.length
  | .advancing c set => ∃ m, c :: m <:+ l ∧ set.length + m.length ≤ l.length
  | .sweeping todo set => set.length ≤ l.length ∧ todo.Nodup ∧ (∀ k ∈ todo, k ∈ keys) ∧
      ∀ k ∈ keys, k ∈ todo ∨ k ∈ set
  | _ => True

/-- All threads have found what they should. -/
def Passes (s : State Θ P F) (l : List Nat) : Prop :=
  ∀ θ, (s.thread θ).pc.Passed l (s.thread θ).store.keys

theorem Pc.Passed.mono {pc : Pc P} {keys : List P} (h : pc.Passed l keys) (hl : l <:+ l') :
    pc.Passed l' keys := by
  have hlen := hl.length_le
  cases pc with
  | scanning c set =>
    obtain ⟨m, hm, hle⟩ := h
    exact ⟨m, hm.trans hl, Nat.le_trans hle hlen⟩
  | advancing c set =>
    obtain ⟨m, hm, hle⟩ := h
    exact ⟨m, hm.trans hl, Nat.le_trans hle hlen⟩
  | sweeping todo set => exact ⟨Nat.le_trans h.1 hlen, h.2⟩
  | _ => trivial

section
variable [DecidableEq P]

/-- A pass goes on. -/
theorem Move.passed {pc pc' : Pc P} (hm : Move s θ pc pc') (hs : Shape s l)
    (h : pc.Passed l (s.thread θ).store.keys) : pc'.Passed l (s.thread θ).store.keys := by
  cases hm with
  | scan =>
    obtain ⟨m, rfl⟩ : ∃ m, l = s.head :: m := by
      have hc := hs.chain
      cases l with
      | nil => cases hc
      | cons a m => exact ⟨m, by rw [Option.some.inj hc.1]⟩
    exact ⟨m, List.suffix_rfl, by simp⟩
  | unmarked hptr =>
    obtain ⟨m, hm, hle⟩ := h
    exact ⟨m, hm, by omega⟩
  | @marked c set ptr hptr =>
    obtain ⟨m, hm, hle⟩ := h
    refine ⟨m, hm, ?_⟩
    have : (set.insert ptr).length ≤ set.length + 1 := by
      rw [List.length_insert]
      split <;> omega
    omega
  | advance hq =>
    obtain ⟨m, hm, hle⟩ := h
    rw [hs.next_eq hm] at hq
    cases m with
    | nil => cases hq
    | cons d m =>
      cases hq
      exact ⟨m, (List.suffix_cons _ _).trans hm, by simpa [Nat.add_assoc] using hle⟩
  | sweep hq =>
    obtain ⟨m, hm, hle⟩ := h
    exact ⟨by omega, (s.thread θ).store.ok.keys, fun k hk => hk, fun k hk => .inl hk⟩
  | @keep key todo set hkey hset =>
    obtain ⟨hle, hnd, hsub, hall⟩ := h
    refine ⟨hle, hnd.erase key, fun k hk => hsub k (List.mem_of_mem_erase hk), fun k hk => ?_⟩
    by_cases heq : k = key
    · exact .inr (heq ▸ hset)
    · exact (hall k hk).imp_left fun hin => (List.mem_erase_of_ne heq).mpr hin
  | _ => trivial

variable [DecidableEq Θ]

omit [DecidableEq P] in
theorem Passes.setThread (h : Passes s l) (hl : l <:+ l') {t : Reclaimer P F}
    (ht : t.pc.Passed l' t.store.keys) : Passes (s.setThread θ t) l' :=
  State.forall_thread (Q := fun t => t.pc.Passed l' t.store.keys) ht fun θ' => (h θ').mono hl

/-- **Step.** Every step keeps what passes have found. -/
theorem Passes.step (h : Passes s l) (hs : Inv s l) {u : Option (Call P F)} (he : Effect s θ u s')
    (hl : l <:+ l') : Passes s' l' := by
  cases he with
  | same => exact fun θ' => (h θ').mono hl
  | null => exact h.setThread hl ((h θ).mono hl)
  | move hm => exact h.setThread hl ((hm.passed hs.toShape (h θ)).mono hl)
  | unmark hu hpc hi => exact fun θ' => (h θ').mono hl
  | @later ptr func hu hpc =>
    refine h.setThread (t := { s.thread θ with
      store := (s.thread θ).store.ReclaimLater ptr func }) hl ?_
    show (s.thread θ).pc.Passed l' _
    rw [hpc]
    trivial
  | @store ptr i hp hpc hi =>
    exact Passes.setThread (s := s.writePtr hp (some ptr)) h hl trivial
  | @take ptr q hpc hflag => exact Passes.setThread (s := s.writeFlag q true) h hl trivial
  | allocate hpc => exact Passes.setThread (s := { s with heap := _, fresh := _ }) h hl trivial
  | count hpc => exact Passes.setThread (s := { s with size := _ }) h hl trivial
  | @link ptr a b hpc => exact Passes.setThread (s := s.writeNext a b) h hl trivial
  | @push ptr a hpc => exact Passes.setThread (s := { s with head := a }) h hl trivial
  | @clear j hp hpc hi hptr => exact Passes.setThread (s := s.writeFlag hp false) h hl trivial
  | @delete push key pc c store hpc htake =>
    refine h.setThread (t := { s.thread θ with store := store, pc := pc }) hl ?_
    obtain ⟨-, -, hkeys⟩ := ReclaimStore.take_keys htake
    rcases hpc with ⟨todo, set, hpc, -, -, rfl⟩ | ⟨todo, q, -, -, rfl⟩
    · have hpass := h θ
      rw [hpc] at hpass
      obtain ⟨hle, hnd, hsub, hall⟩ := hpass
      refine ⟨Nat.le_trans hle hl.length_le, hnd.erase key, fun k hk => ?_, fun k hk => ?_⟩
      · show k ∈ store.keys
        rw [hkeys, List.mem_filter]
        exact ⟨hsub k (List.mem_of_mem_erase hk), by simpa using (hnd.mem_erase_iff.mp hk).1⟩
      · have hk : k ∈ store.keys := hk
        rw [hkeys, List.mem_filter] at hk
        have hne : k ≠ key := by simpa using hk.2
        exact (hall k hk.1).imp_left fun hin => (List.mem_erase_of_ne hne).mpr hin
    · trivial

end

/-- **Run.** The invariants of the list, of `size` and of the passes. -/
theorem reachable_passes [DecidableEq Θ] [DecidableEq P] {G : State Θ P F → Action Θ P F → Prop}
    (h : (system Θ P F).ReachableUnder G s) : ∃ l, Inv s l ∧ Sized s l ∧ Passes s l := by
  refine h.invariant (I := fun s => ∃ l, Inv s l ∧ Sized s l ∧ Passes s l) ?_ ?_
  · rintro _ rfl
    exact ⟨[0], .initial, ⟨∅, by simp [Hazard.initial, Pc.counted], rfl⟩, fun _ => trivial⟩
  · rintro s a s' ⟨l, hl, hsize, hpass⟩ - hs
    have he := step_effect hs
    obtain ⟨l', hl', hgrow⟩ := hl.step he
    exact ⟨l', hl', hsize.step hl he hl' hgrow, hpass.step hl he hgrow.suffix⟩

/-! ### When it returns -/

/-- The list is no longer than `size` says. -/
theorem Sized.length_le (h : Sized s l) : l.length ≤ s.size + 1 := by
  obtain ⟨S, -, hcard⟩ := h
  omega

/-- A call of `ReclaimNoHazardPointer` in a thread returns with this step. -/
def Returns (s : State Θ P F) (a : Action Θ P F) (θ : Θ) (s' : State Θ P F) : Prop :=
  (s'.thread θ).pc = .idle ∧
    (a = .call θ .ReclaimNoHazardPointer ∨ ∃ todo set, (s.thread θ).pc = .sweeping todo set)

section
variable [DecidableEq Θ] [DecidableEq P]

/-- The loop over `reclaim_map_` ends when it has come to all keys. -/
theorem step_swept {a : Action Θ P F} {todo set : List P} (hs : step s a = some s')
    (hpc : (s.thread θ).pc = .sweeping todo set) (hend : (s'.thread θ).pc = .idle) :
    todo = [] ∧ s' = s.goto θ .idle := by
  have hθ : a.thread = θ := by
    by_contra hne
    rw [pc_of_ne hs hne, hpc] at hend
    cases hend
  subst hθ
  cases a with
  | call θ c =>
    simp only [Action.thread] at hpc
    simp [step, hpc] at hs
  | run θ strong =>
    simp only [Action.thread] at hpc ⊢
    simp only [step, hpc, run, Option.ite_none_right_eq_some, Option.some.injEq] at hs
    exact ⟨hs.1, hs.2.symm⟩
  | visit θ key =>
    simp only [Action.thread] at hpc hend
    simp only [step, hpc, visit] at hs
    split at hs
    · split at hs
      · cases hs
        rw [State.goto, State.setThread_self] at hend
        cases hend
      · unfold delete at hs
        split at hs
        · cases hs
        · cases hs
          rw [show _ = _ from State.setThread_self s θ _] at hend
          cases hend
    · cases hs

/-- **Few wait.** In every run, when `ReclaimNoHazardPointer` returns, less than
    `kCoefficient * size` pointers wait in its thread, or at most one for each hazard pointer. -/
theorem few_wait {a : Action Θ P F} (h : (system Θ P F).Reachable s) (hs : step s a = some s')
    (hret : Returns s a θ s') :
    (s'.thread θ).store.reclaim_map_.length < kCoefficient * s'.size ∨
      (s'.thread θ).store.reclaim_map_.length ≤ s'.size + 1 := by
  obtain ⟨l, hl, hsize, hpass⟩ := reachable_passes h
  obtain ⟨hend, rfl | ⟨todo, set, hpc⟩⟩ := hret
  · left
    simp only [step] at hs
    split at hs
    · simp only [start] at hs
      split at hs
      · next hlt => cases hs; exact hlt
      · cases hs
        rw [State.goto, State.setThread_self] at hend
        cases hend
    · cases hs
  · right
    obtain ⟨rfl, rfl⟩ := step_swept hs hpc hend
    have hp := hpass θ
    rw [hpc] at hp
    obtain ⟨hle, -, -, hall⟩ := hp
    rw [State.goto, State.setThread_self]
    -- what still waits has been found, and no more has been found than there are hazard pointers
    have hsub : (s.thread θ).store.keys ⊆ set := fun k hk =>
      (hall k hk).resolve_left List.not_mem_nil
    have hkeys : (s.thread θ).store.keys.length ≤ set.length :=
      ((s.thread θ).store.ok.keys.subperm hsub).length_le
    rw [ReclaimNodes.keys, List.length_map] at hkeys
    exact Nat.le_trans hkeys (Nat.le_trans hle hsize.length_le)

end

/-! ### What nobody marks -/

/-- A thread in its pass has not found the pointer `p`. -/
def Pc.Missed (keys : List P) (p : P) : Pc P → Prop
  | .entering => True
  | .scanning _ set | .advancing _ set | .sweeping _ set => p ∉ set
  | .idle => p ∉ keys
  | _ => False

/-- The thread `θ` has not found the pointer in its pass, and has not lost it. -/
structure Due (s : State Θ P F) (θ : Θ) (p : P) (f : F) (old : List (Θ × P × F)) : Prop where
  missed : (s.thread θ).pc.Missed (s.thread θ).store.keys p
  there : (p, f) ∈ (s.thread θ).store.pending ∨
    ∃ d, s.deleted = d ++ old ∧ (θ, p, f) ∈ d
  log : ∃ d, s.deleted = d ++ old

section
variable [DecidableEq Θ] [DecidableEq P]

omit [DecidableEq Θ] in
/-- A thread that goes on in its pass, and does not find an unmarked pointer. -/
theorem Move.missed {pc pc' : Pc P} (hm : Move s θ pc pc') (hidle : pc ≠ .idle)
    (hpass : pc.Passed l (s.thread θ).store.keys) (hp : ∀ r, (s.heap r).ptr ≠ some p)
    (h : pc.Missed (s.thread θ).store.keys p) : pc'.Missed (s.thread θ).store.keys p := by
  cases hm with
  | search | enter | destroy => exact absurd rfl hidle
  | scan => exact List.not_mem_nil
  | unmarked hptr => exact h
  | @marked c set ptr hptr =>
    intro hin
    rcases List.mem_insert_iff.mp hin with rfl | hin
    · exact hp c hptr
    · exact h hin
  | advance hq | sweep hq | keep hkey hset => exact h
  | swept => exact fun hk => (hpass.2.2.2 p hk).elim List.not_mem_nil h
  | _ => exact h.elim

theorem Effect.deleted {u : Option (Call P F)} (he : Effect s θ u s') :
    s'.deleted = s.deleted ∨ ∃ c, s'.deleted = (θ, c) :: s.deleted := by
  cases he with
  | delete hpc htake => exact .inr ⟨_, rfl⟩
  | _ => exact .inl rfl

/-- **Step.** A step of a run in which nobody marks the pointer. -/
theorem Due.step {f : F} {old : List (Θ × P × F)} {a : Action Θ P F} (h : Due s θ p f old)
    (hpass : Passes s l) (hs : Hazard.step s a = some s') (hcall : ∀ c, a ≠ .call θ c)
    (hp : ∀ r, (s.heap r).ptr ≠ some p) : Due s' θ p f old := by
  have he := step_effect hs
  obtain ⟨d, hd⟩ := h.log
  by_cases hθ : a.thread = θ
  · have hidle := not_idle hs hθ hcall
    have hmiss := h.missed
    rw [hθ] at he
    cases he with
    | same hpc | null hpc | unmark hu hpc hi | later hu hpc => exact absurd hpc hidle
    | move hm =>
      refine ⟨?_, ?_, h.log⟩ <;> rw [State.goto, State.setThread_self]
      · exact hm.missed hidle (hpass θ) hp hmiss
      · exact h.there
    | store hpc hi | take hpc hflag | allocate hpc | count hpc | link hpc | push hpc
    | clear hpc hi hptr =>
      rw [hpc] at hmiss
      exact hmiss.elim
    | @delete push key pc c store hpc htake =>
      have hperm := ReclaimStore.pending_take htake
      rcases hpc with ⟨todo, set, hpc, -, -, rfl⟩ | ⟨todo, q, hpc, -, -⟩
      · rw [hpc] at hmiss
        refine ⟨?_, ?_, (θ, c) :: d, congrArg _ hd⟩
        · show Pc.Missed _ p (State.thread (State.setThread s θ _) θ).pc
          rw [State.setThread_self]
          exact hmiss
        · show (p, f) ∈ (State.thread (State.setThread s θ _) θ).store.pending ∨ _
          rw [State.setThread_self]
          rcases h.there with hin | ⟨d', hd', hin⟩
          · rcases List.mem_cons.mp (hperm.mem_iff.mp hin) with heq | hin
            · exact .inr ⟨(θ, c) :: d, congrArg _ hd, heq ▸ List.mem_cons_self⟩
            · exact .inl hin
          · exact .inr ⟨(θ, c) :: d', congrArg _ hd', List.mem_cons_of_mem _ hin⟩
      · rw [hpc] at hmiss
        exact hmiss.elim
  · have hthread := pc_of_ne hs hθ
    refine ⟨hthread ▸ h.missed, ?_, ?_⟩
    · rw [hthread]
      refine h.there.imp_right fun ⟨d', hd', hin⟩ => ?_
      rcases he.deleted with heq | ⟨c, heq⟩
      · exact ⟨d', heq.trans hd', hin⟩
      · exact ⟨_ :: d', heq.trans (congrArg _ hd'), List.mem_cons_of_mem _ hin⟩
    · rcases he.deleted with heq | ⟨c, heq⟩
      · exact ⟨d, heq.trans hd⟩
      · exact ⟨_ :: d, heq.trans (congrArg _ hd)⟩

/-- **A pass deletes what nobody marks.** When a thread is about to pass over the list and in no
    state of its pass a pointer is marked that waits in it, then once the thread is back this
    pointer has been deleted, with the function that it was handed over with. -/
theorem unmarked_deleted {f : F} {as : List (Action Θ P F)} (h : (system Θ P F).Reachable s)
    (hpc : (s.thread θ).pc = .entering) (hin : (p, f) ∈ (s.thread θ).store.pending)
    (hcall : ∀ a ∈ as, ∀ c, a ≠ .call θ c)
    (hp : (system Θ P F).Along (fun t => ∀ r, (t.heap r).ptr ≠ some p) s as)
    (hr : (system Θ P F).exec s as = some s') (hend : (s'.thread θ).pc = .idle) :
    ∃ d, s'.deleted = d ++ s.deleted ∧ (θ, p, f) ∈ d := by
  have hdue : Due s θ p f s.deleted := ⟨hpc ▸ trivial, .inl hin, [], rfl⟩
  generalize s.deleted = old at hdue ⊢
  clear hpc hin
  induction as generalizing s with
  | nil =>
    cases hr
    refine hdue.there.resolve_left fun hin => ?_
    have hmiss := hdue.missed
    rw [hend] at hmiss
    refine hmiss ?_
    rw [← (s'.thread θ).store.ok.pending_keys]
    exact List.mem_map_of_mem (f := Prod.fst) hin
  | cons a as ih =>
    obtain ⟨t, hs, ht⟩ := Option.bind_eq_some_iff.mp hr
    obtain ⟨ha, has⟩ := List.forall_mem_cons.mp hcall
    obtain ⟨l, -, -, hpass⟩ := reachable_passes h
    exact ih (.step h trivial hs) has (hp.2 t hs) ht (hdue.step hpass hs ha hp.1)

end

/-! ### How long a pass takes -/

/-- A thread with these keys is `n` steps from the end of its pass, unless the list grows before it
    enters. -/
def Pc.Left (l : List Nat) (keys : List P) : Pc P → Nat → Prop
  | .entering, n => n = 2 * l.length + keys.length + 2
  | .scanning c _, n => ∃ m, c :: m <:+ l ∧ n = 2 * m.length + keys.length + 3
  | .advancing c _, n => ∃ m, c :: m <:+ l ∧ n = 2 * m.length + keys.length + 2
  | .sweeping todo _, n => n = todo.length + 1
  | .idle, n => n = 0
  | _, _ => False

theorem Pc.Left.mono {pc : Pc P} {keys : List P} {n : Nat} (h : pc.Left l keys n) (hl : l <:+ l') :
    ∃ n', pc.Left l' keys n' ∧ n' + 2 * l.length ≤ n + 2 * l'.length := by
  have hlen := hl.length_le
  cases pc with
  | entering =>
    have hn : n = 2 * l.length + keys.length + 2 := h
    exact ⟨_, rfl, by omega⟩
  | scanning c set | advancing c set =>
    obtain ⟨m, hm, hn⟩ := h
    exact ⟨n, ⟨m, hm.trans hl, hn⟩, by omega⟩
  | sweeping | idle => exact ⟨n, h, by omega⟩
  | _ => exact h.elim

section
variable [DecidableEq P]

/-- A step of a pass is one step less. -/
theorem Move.less {pc pc' : Pc P} {n : Nat} (hm : Move s θ pc pc') (hs : Shape s l)
    (hidle : pc ≠ .idle) (h : pc.Left l (s.thread θ).store.keys n) :
    ∃ n', pc'.Left l (s.thread θ).store.keys n' ∧ n' + 1 ≤ n := by
  cases hm with
  | search | enter | destroy => exact absurd rfl hidle
  | scan =>
    obtain ⟨m, rfl⟩ : ∃ m, l = s.head :: m := by
      have hc := hs.chain
      cases l with
      | nil => cases hc
      | cons a m => exact ⟨m, by rw [Option.some.inj hc.1]⟩
    have hn : n = _ := h
    exact ⟨_, ⟨m, List.suffix_rfl, rfl⟩, by rw [hn, List.length_cons]; omega⟩
  | unmarked | marked =>
    obtain ⟨m, hm, hn⟩ := h
    exact ⟨_, ⟨m, hm, rfl⟩, by omega⟩
  | advance hq =>
    obtain ⟨m, hm, hn⟩ := h
    rw [hs.next_eq hm] at hq
    cases m with
    | nil => cases hq
    | cons d m =>
      cases hq
      refine ⟨_, ⟨m, (List.suffix_cons _ _).trans hm, rfl⟩, ?_⟩
      rw [hn, List.length_cons]
      omega
  | sweep hq =>
    obtain ⟨m, hm, hn⟩ := h
    exact ⟨_, rfl, by omega⟩
  | @keep key todo set hkey hset =>
    have hn : n = todo.length + 1 := h
    have := List.length_erase_add_one hkey
    exact ⟨_, rfl, by omega⟩
  | swept =>
    have hn : n = 0 + 1 := h
    exact ⟨0, rfl, by omega⟩
  | _ => exact h.elim

variable [DecidableEq Θ]

/-- **Step.** A step of the thread leaves less to do, and a step of another one no more. -/
theorem left_step {a : Action Θ P F} {n : Nat}
    (h : (s.thread θ).pc.Left l (s.thread θ).store.keys n) (hs : Inv s l)
    (hst : step s a = some s') (hcall : ∀ c, a ≠ .call θ c) (hl : l <:+ l') :
    ∃ n', (s'.thread θ).pc.Left l' (s'.thread θ).store.keys n' ∧
      n' + (if a.thread = θ then 1 else 0) + 2 * l.length ≤ n + 2 * l'.length := by
  have he := step_effect hst
  by_cases hθ : a.thread = θ
  · have hidle := not_idle hst hθ hcall
    obtain ⟨n', hn', hle⟩ : ∃ n', (s'.thread θ).pc.Left l (s'.thread θ).store.keys n' ∧
        n' + 1 ≤ n := by
      rw [hθ] at he
      cases he with
      | @move pc hm =>
        rw [State.goto, State.setThread_self]
        exact hm.less hs.toShape hidle h
      | same hpc | null hpc | unmark hu hpc hi | later hu hpc => exact absurd hpc hidle
      | store hpc hi | take hpc hflag | allocate hpc | count hpc | link hpc | push hpc
      | clear hpc hi hptr =>
        rw [hpc] at h
        exact h.elim
      | @delete push key pc c store hpc htake =>
        rcases hpc with ⟨todo, set, hpc, hkey, -, rfl⟩ | ⟨todo, q, hpc, -, -⟩
        · rw [hpc] at h
          have hn : n = todo.length + 1 := h
          have := List.length_erase_add_one hkey
          refine ⟨(todo.erase key).length + 1, ?_, by omega⟩
          show (State.thread (State.setThread s θ _) θ).pc.Left l _ _
          rw [State.setThread_self]
          rfl
        · rw [hpc] at h
          exact h.elim
    obtain ⟨n'', hn'', hle'⟩ := hn'.mono hl
    exact ⟨n'', hn'', by rw [if_pos hθ]; omega⟩
  · rw [pc_of_ne hst hθ]
    obtain ⟨n', hn', hle⟩ := h.mono hl
    exact ⟨n', hn', by rw [if_neg hθ]; omega⟩

/-- A thread in its pass can always take its next step. -/
theorem can_step {n : Nat} (h : (s.thread θ).pc.Left l (s.thread θ).store.keys n)
    (hpass : Passes s l) (hidle : (s.thread θ).pc ≠ .idle) :
    ∃ a, a.thread = θ ∧ (∀ c, a ≠ .call θ c) ∧ (step s a).isSome := by
  have hrun : (run s θ true (s.thread θ).pc).isSome →
      ∃ a, a.thread = θ ∧ (∀ c, a ≠ .call θ c) ∧ (step s a).isSome := fun hr =>
    ⟨.run θ true, rfl, by simp, hr⟩
  cases hpc : (s.thread θ).pc with
  | entering => exact hrun (by rw [hpc]; rfl)
  | scanning c set =>
    refine hrun ?_
    cases hptr : (s.heap c).ptr <;> simp [hpc, run, hptr]
  | advancing c set =>
    refine hrun ?_
    cases hq : s.next c <;> simp [hpc, run, hq]
  | sweeping todo set =>
    cases todo with
    | nil => exact hrun (by rw [hpc]; rfl)
    | cons k todo =>
      have hp := hpass θ
      rw [hpc] at hp
      obtain ⟨c, store, htake⟩ :=
        ReclaimStore.exists_take (hp.2.2.1 k List.mem_cons_self) true
      refine ⟨.visit θ k, rfl, by simp, ?_⟩
      simp only [step, hpc, visit, List.mem_cons_self, if_true]
      by_cases hset : k ∈ set
      · rw [if_pos hset]
        rfl
      · rw [if_neg hset, delete, htake]
        rfl
  | idle => exact absurd hpc hidle
  | _ =>
    rw [hpc] at h
    exact h.elim

/-- The steps of a thread in a run. -/
def steps (θ : Θ) (as : List (Action Θ P F)) : Nat := as.countP fun a => a.thread = θ

/-- **Run.** A run takes what it takes from the steps that are left. -/
theorem left_run {as : List (Action Θ P F)} {n : Nat} (hl : Inv s l) (hsize : Sized s l)
    (hpass : Passes s l) (h : (s.thread θ).pc.Left l (s.thread θ).store.keys n)
    (hcall : ∀ a ∈ as, ∀ c, a ≠ .call θ c) (hr : (system Θ P F).exec s as = some s') :
    ∃ l' n', Sized s' l' ∧ Passes s' l' ∧ (s'.thread θ).pc.Left l' (s'.thread θ).store.keys n' ∧
      n' + steps θ as + 2 * l.length ≤ n + 2 * l'.length := by
  induction as generalizing s l n with
  | nil =>
    cases hr
    exact ⟨l, n, hsize, hpass, h, by simp [steps]⟩
  | cons a as ih =>
    obtain ⟨t, hs, ht⟩ := Option.bind_eq_some_iff.mp hr
    obtain ⟨ha, has⟩ := List.forall_mem_cons.mp hcall
    have he := step_effect hs
    obtain ⟨m, hm, hgrow⟩ := hl.step he
    obtain ⟨k, hk, hle⟩ := left_step h hl hs ha hgrow.suffix
    obtain ⟨l', n', hsize', hpass', h', hle'⟩ :=
      ih hm (hsize.step hl he hm hgrow) (hpass.step hl he hgrow.suffix) hk has ht
    refine ⟨l', n', hsize', hpass', h', ?_⟩
    have : steps θ (a :: as) = steps θ as + if a.thread = θ then 1 else 0 := by
      simp [steps, List.countP_cons]
    omega

/-- **A pass is wait-free.** Whatever the other threads do, a pass over the list takes at most
    `2 * (size + 1) + reclaim_map_.size() + 2` steps of its thread, and until it is over the next
    one of them is possible in every state. -/
theorem pass_wait_free {as : List (Action Θ P F)} (h : (system Θ P F).Reachable s)
    (hpc : (s.thread θ).pc = .entering) (hcall : ∀ a ∈ as, ∀ c, a ≠ .call θ c)
    (hr : (system Θ P F).exec s as = some s') :
    steps θ as ≤ 2 * (s'.size + 1) + (s.thread θ).store.reclaim_map_.length + 2 ∧
      ((s'.thread θ).pc ≠ .idle →
        ∃ a, a.thread = θ ∧ (∀ c, a ≠ .call θ c) ∧ (step s' a).isSome) := by
  obtain ⟨l, hl, hsize, hpass⟩ := reachable_passes h
  have hleft : (s.thread θ).pc.Left l (s.thread θ).store.keys
      (2 * l.length + (s.thread θ).store.keys.length + 2) := by
    rw [hpc]
    rfl
  obtain ⟨l', n', hsize', hpass', hleft', hle⟩ := left_run hl hsize hpass hleft hcall hr
  refine ⟨?_, can_step hleft' hpass'⟩
  have := hsize'.length_le
  rw [ReclaimNodes.keys, List.length_map] at hle
  omega

/-- With the pointer 7 marked, another thread is handed the pointers 7 and 8 and is about to pass
    over the list. -/
def entered : State Bool Nat Unit :=
  ((system Bool Nat Unit).exec marked [.call true (.ReclaimLater 7 ()),
    .call true (.ReclaimLater 8 ()), .call true .ReclaimNoHazardPointer]).getD initial

theorem entered_reachable : (system Bool Nat Unit).Reachable entered := by
  have hr : (system Bool Nat Unit).exec marked [.call true (.ReclaimLater 7 ()),
    .call true (.ReclaimLater 8 ()), .call true .ReclaimNoHazardPointer] = some entered := rfl
  exact marked_reachable.exec (LTS.guarded_true _ _) hr

/-- Its pass, up to the last step. -/
def passing : List (Action Bool Nat Unit) :=
  [.run true true, .run true true, .run true true, .visit true 8, .visit true 7]

/-- The state after this. -/
def passed : State Bool Nat Unit := ((system Bool Nat Unit).exec entered passing).getD initial

theorem exec_passing : (system Bool Nat Unit).exec entered passing = some passed := rfl

theorem passing_no_call : ∀ a ∈ passing, ∀ c, a ≠ .call true c := by simp [passing]

theorem pass_wait_free_passing :
    steps true passing ≤
        2 * (passed.size + 1) + (entered.thread true).store.reclaim_map_.length + 2 ∧
      ((passed.thread true).pc ≠ .idle →
        ∃ a, a.thread = true ∧ (∀ c, a ≠ .call true c) ∧ (step passed a).isSome) :=
  pass_wait_free entered_reachable rfl passing_no_call exec_passing

/-- The pointer 7 waits after the pass. -/
theorem few_wait_passing : ∃ s, step passed (.run true true) = some s ∧
    ((s.thread true).store.reclaim_map_.length < kCoefficient * s.size ∨
      (s.thread true).store.reclaim_map_.length ≤ s.size + 1) := by
  have hs : step passed (.run true true) = some _ := rfl
  exact ⟨_, hs, few_wait (entered_reachable.exec (LTS.guarded_true _ _) exec_passing) hs
    ⟨rfl, .inr ⟨_, _, rfl⟩⟩⟩

/-- Nobody marks the pointer 8. -/
theorem entered_unmarked (r : Nat) : (entered.heap r).ptr ≠ some 8 := by
  obtain ⟨l, -, hslots⟩ := reachable_slots entered_reachable
  by_cases hr : r = 0
  · subst hr
    decide
  · rw [hslots.free r fun hm => hr (Nat.lt_one_iff.mp (mem_flagged.mp hm).1)]
    nofun

theorem unmarked_deleted_passing : ∃ s, step passed (.run true true) = some s ∧
    ∃ d, s.deleted = d ++ entered.deleted ∧ (true, 8, ()) ∈ d := by
  have hs : step passed (.run true true) = some _ := rfl
  have hr : (system Bool Nat Unit).exec entered (passing ++ [.run true true]) = some _ := rfl
  have hcall : ∀ a ∈ passing ++ [.run true true], ∀ c, a ≠ .call true c := by simp [passing]
  refine ⟨_, hs, unmarked_deleted entered_reachable rfl (by decide) hcall ?_ hr rfl⟩
  -- the pass does not write the hazard pointers
  refine ⟨entered_unmarked, fun t ht => ?_⟩
  cases ht
  refine ⟨entered_unmarked, fun t ht => ?_⟩
  cases ht
  refine ⟨entered_unmarked, fun t ht => ?_⟩
  cases ht
  refine ⟨entered_unmarked, fun t ht => ?_⟩
  cases ht
  refine ⟨entered_unmarked, fun t ht => ?_⟩
  cases ht
  refine ⟨entered_unmarked, fun t ht => ?_⟩
  cases ht
  exact entered_unmarked

end

end LimWebserver.Hazard
