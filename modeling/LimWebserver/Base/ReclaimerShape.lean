import LimWebserver.Base.ReclaimerStep
import LimWebserver.Lib.Ownership

namespace LimWebserver.Hazard

open LimWebserver.Lib

/-!
# Base — the list of hazard pointers and who owns them

* `Shape` — the list that `head` starts is a chain without repetition, threads walk on it, and a
  hazard pointer that is still to be pushed is not in it;
* `owner`, `flagged` — whose hazard pointer it is, and the ones whose `flag` is set; that the second
  are what the first owns is `Owns` of the library, and `TryAcquireHazardPointer` and the destructor
  are its two moves;
* `Inv`, `reachable_inv` — both hold in every reachable state.
-/

variable {Θ P F : Type*}

namespace Pc

/-- The hazard pointer that a thread has allocated and not pushed yet. -/
def newHead : Pc P → Option Nat
  | .counting _ a | .loading _ a | .linking _ a _ | .swapping _ a _ => some a
  | _ => none

/-- The hazard pointer of the list that a thread has come to. -/
def cursor : Pc P → Option Nat
  | .testing _ p | .following _ p | .scanning p _ | .advancing p _ | .comparing _ _ p
  | .stepping _ _ p => some p
  | _ => none

/-- The destructor has handed over `hp_list_[i]`. -/
def handedOver : Pc P → Nat → Bool
  | .releasing j, i => i < j
  | .leaving _, _ | .asking _ _, _ | .comparing _ _ _, _ | .stepping _ _ _, _ | .gone, _ => true
  | _, _ => false

end Pc

/-- The hazard pointers of a thread: the ones in `hp_list_` that are not handed over, and behind
    them the one that it is about to push. -/
def Reclaimer.slot (t : Reclaimer P F) (i : Nat) : Option Nat :=
  if t.pc.handedOver i then none else (t.hp_list_ ++ t.pc.newHead.toList)[i]?

/-- The owners of the hazard pointers, each a thread and an index. -/
def owner (s : State Θ P F) (o : Θ × Nat) : Option Nat := (s.thread o.1).slot o.2

/-- The hazard pointers whose `flag` is set. -/
def flagged (s : State Θ P F) : Finset Nat := (Finset.range s.fresh).filter fun a => (s.heap a).flag

/-- The list of hazard pointers is `l`. -/
structure Shape (s : State Θ P F) (l : List Nat) : Prop where
  chain : Chain s.next (some s.head) l none
  nodup : l.Nodup
  lt : ∀ a ∈ l, a < s.fresh
  /-- what is still to be pushed is not in the list -/
  new : ∀ θ a, (s.thread θ).pc.newHead = some a → a < s.fresh ∧ a ∉ l
  /-- before the compare-exchange it points to the head that has been read -/
  link : ∀ θ ptr a b, (s.thread θ).pc = .swapping ptr a b → s.next a = some b
  cursor : ∀ θ p, (s.thread θ).pc.cursor = some p → p ∈ l
  hp : ∀ θ, ∀ a ∈ (s.thread θ).hp_list_, a ∈ l

variable {s s' : State Θ P F} {θ θ' : Θ} {l : List Nat} {a b : Nat}

/-! ### Frames -/

/-- What holds of the data of the thread that moves and held of all threads holds of all threads. -/
theorem State.forall_thread [DecidableEq Θ] {Q : Reclaimer P F → Prop} {t : Reclaimer P F}
    (ht : Q t) (h : ∀ θ', Q (s.thread θ')) (θ' : Θ) : Q ((s.setThread θ t).thread θ') := by
  rcases eq_or_ne θ' θ with rfl | hne
  · rwa [State.setThread_self]
  · rw [State.setThread_of_ne s t hne]
    exact h θ'

namespace Shape

/-- The list stays when no `next` changes. -/
theorem frame (h : Shape s l) {heap : Nat → InternalHazardPointer P}
    (hnext : ∀ a, (heap a).next = s.next a) : Shape { s with heap := heap } l := by
  have heq : ({ s with heap := heap } : State Θ P F).next = s.next := funext hnext
  exact ⟨heq ▸ h.chain, h.nodup, h.lt, h.new, heq ▸ h.link, h.cursor, h.hp⟩

theorem writePtr (h : Shape s l) (p : Nat) (ptr : Option P) : Shape (s.writePtr p ptr) l :=
  h.frame fun a => by
    rcases eq_or_ne a p with rfl | hne
    · rw [Function.update_self]; rfl
    · rw [Function.update_of_ne hne]; rfl

theorem writeFlag (h : Shape s l) (p : Nat) (flag : Bool) : Shape (s.writeFlag p flag) l :=
  h.frame fun a => by
    rcases eq_or_ne a p with rfl | hne
    · rw [Function.update_self]; rfl
    · rw [Function.update_of_ne hne]; rfl

/-- The list does not depend on `size` and on what has been deleted. -/
theorem log (h : Shape s l) {n : Nat} {r d : List (Θ × P × F)} :
    Shape { s with size := n, retired := r, deleted := d } l :=
  ⟨h.chain, h.nodup, h.lt, h.new, h.link, h.cursor, h.hp⟩

/-- The head is in the list. -/
theorem head_mem (h : Shape s l) : s.head ∈ l := by
  have hc := h.chain
  cases l with
  | nil => cases hc
  | cons a l =>
    obtain ⟨heq, -⟩ := hc
    rw [Option.some.inj heq]
    exact List.mem_cons_self

/-- Behind a hazard pointer of the list comes one of the list. -/
theorem next_mem (h : Shape s l) (ha : a ∈ l) (hb : s.next a = some b) : b ∈ l := by
  obtain ⟨i, hi, rfl⟩ := List.getElem_of_mem ha
  have := h.chain.next_getElem? (List.getElem?_eq_getElem hi)
  rw [hb] at this
  exact List.mem_of_getElem? this.symm

/-- In a part of the list the next one is the next one of the list. -/
theorem next_eq (h : Shape s l) {m : List Nat} (hm : a :: m <:+ l) : s.next a = m.head? := by
  obtain ⟨n, rfl⟩ := hm
  obtain ⟨q, -, hq⟩ := Chain.append_iff.mp h.chain
  exact (hq.2).head.trans (List.head?_eq_getElem? ..).symm

variable [DecidableEq Θ]

/-- One thread moves, with the list as it is. -/
theorem setThread (h : Shape s l) {t : Reclaimer P F} (hhp : ∀ a ∈ t.hp_list_, a ∈ l)
    (hnew : ∀ a, t.pc.newHead = some a → a < s.fresh ∧ a ∉ l)
    (hlink : ∀ ptr a b, t.pc = .swapping ptr a b → s.next a = some b)
    (hcur : ∀ p, t.pc.cursor = some p → p ∈ l) : Shape (s.setThread θ t) l := by
  exact ⟨h.chain, h.nodup, h.lt,
    State.forall_thread (Q := fun t => ∀ a, t.pc.newHead = some a → a < s.fresh ∧ a ∉ l) hnew h.new,
    State.forall_thread (Q := fun t => ∀ ptr a b, t.pc = .swapping ptr a b → s.next a = some b)
      hlink h.link,
    State.forall_thread (Q := fun t => ∀ p, t.pc.cursor = some p → p ∈ l) hcur h.cursor,
    State.forall_thread (Q := fun t => ∀ a ∈ t.hp_list_, a ∈ l) hhp h.hp⟩

/-- One thread moves to a program point without a hazard pointer of its own to push. -/
theorem goto (h : Shape s l) {pc : Pc P} (hnew : pc.newHead = (s.thread θ).pc.newHead)
    (hlink : ∀ ptr a b, pc ≠ .swapping ptr a b) (hcur : ∀ p, pc.cursor = some p → p ∈ l) :
    Shape (s.goto θ pc) l :=
  h.setThread (h.hp θ) (fun a ha => h.new θ a (hnew ▸ ha))
    (fun ptr a b hs => absurd hs (hlink ptr a b)) hcur

end Shape

/-! ### Steps that write nothing -/

section
variable [DecidableEq P] {pc pc' : Pc P}

theorem Move.newHead (h : Move s θ pc pc') : pc'.newHead = pc.newHead := by
  cases h <;> rfl

theorem Move.ne_swapping (h : Move s θ pc pc') (ptr : P) (a b : Nat) : pc' ≠ .swapping ptr a b := by
  cases h <;> nofun

/-- A thread walks on the list. -/
theorem Move.cursor (h : Move s θ pc pc') (hs : Shape s l) (hpc : ∀ p, pc.cursor = some p → p ∈ l)
    {p : Nat} (hp : pc'.cursor = some p) : p ∈ l := by
  cases h with
  | acquire | scan | ask =>
    cases hp
    exact hs.head_mem
  | follow hq | advance hq | step hq =>
    cases hp
    exact hs.next_mem (hpc _ rfl) hq
  | busy | unmarked | marked | other => exact hpc p hp
  | _ => cases hp

/-- Nothing is handed over and nothing is taken. -/
theorem Move.handedOver (h : Move s θ pc pc') {i : Nat}
    (hi : i < (s.thread θ).hp_list_.length ∨ pc.newHead.isSome) :
    pc'.handedOver i = pc.handedOver i := by
  cases h with
  | destroy => simp [Pc.handedOver]
  | released hend =>
    rw [List.getElem?_eq_none_iff] at hend
    rcases hi with hi | hi
    · simp [Pc.handedOver, Nat.lt_of_lt_of_le hi hend]
    · cases hi
  | _ => rfl

end

/-! ### Who owns what -/

section
variable [DecidableEq Θ]

/-- A thread changes what it has in one place. -/
theorem owner_setThread {t : Reclaimer P F} {k : Nat}
    (h : ∀ i, i ≠ k → t.slot i = (s.thread θ).slot i) :
    owner (s.setThread θ t) = Function.update (owner s) (θ, k) (t.slot k) := by
  funext ⟨θ', i⟩
  rcases eq_or_ne θ' θ with rfl | hne
  · rcases eq_or_ne i k with rfl | hik
    · rw [Function.update_self, owner, State.setThread_self]
    · rw [Function.update_of_ne (by simpa using hik), owner, State.setThread_self, h i hik, owner]
  · rw [Function.update_of_ne (by simp [hne]), owner, State.setThread_of_ne s t hne, owner]

/-- A thread that moves with its hazard pointers leaves all owners as they are. -/
theorem owner_setThread_same {t : Reclaimer P F} (h : ∀ i, t.slot i = (s.thread θ).slot i) :
    owner (s.setThread θ t) = owner s := by
  rw [owner_setThread (k := 0) fun i _ => h i, h 0]
  exact Function.update_eq_self _ _

/-- A thread gets a hazard pointer behind the ones that it has. -/
theorem owner_append {t : Reclaimer P F}
    (hold : ∀ i, (s.thread θ).slot i = (s.thread θ).hp_list_[i]?)
    (hnew : ∀ i, t.slot i = ((s.thread θ).hp_list_ ++ [a])[i]?) :
    owner s (θ, (s.thread θ).hp_list_.length) = none ∧ owner (s.setThread θ t) =
      Function.update (owner s) (θ, (s.thread θ).hp_list_.length) (some a) := by
  refine ⟨by simp [owner, hold], ?_⟩
  rw [owner_setThread (k := (s.thread θ).hp_list_.length), hnew]
  · simp
  · intro i hi
    rw [hold, hnew, List.getElem?_append]
    split
    · rfl
    · rw [List.getElem?_singleton, if_neg (by omega)]
      exact (List.getElem?_eq_none (by omega)).symm

/-- A step that writes nothing leaves all owners as they are. -/
theorem Move.owner [DecidableEq P] {pc : Pc P} (h : Move s θ (s.thread θ).pc pc) :
    owner (s.goto θ pc) = owner s := by
  refine owner_setThread_same fun i => ?_
  show (if pc.handedOver i then none else ((s.thread θ).hp_list_ ++ pc.newHead.toList)[i]?) = _
  rw [h.newHead, Reclaimer.slot]
  by_cases hi : i < (s.thread θ).hp_list_.length ∨ (s.thread θ).pc.newHead.isSome
  · rw [h.handedOver hi]
  · -- there is nothing at this index
    obtain ⟨hi, hn⟩ := not_or.mp hi
    have hnone : ((s.thread θ).hp_list_ ++ (s.thread θ).pc.newHead.toList)[i]? = none := by
      rw [List.getElem?_eq_none_iff, List.length_append, Option.not_isSome_iff_eq_none.mp hn]
      simpa using hi
    rw [hnone]
    split <;> split <;> rfl

end

/-- A thread that is not in its destructor has all of `hp_list_`. -/
theorem owner_hp {i : Nat} (hi : (s.thread θ).hp_list_[i]? = some a)
    (hout : (s.thread θ).pc.handedOver i = false) : owner s (θ, i) = some a := by
  obtain ⟨hlt, rfl⟩ := List.getElem?_eq_some_iff.mp hi
  rw [owner, Reclaimer.slot, hout, List.getElem?_append_left hlt]
  exact hi

/-- A hazard pointer that is still to be pushed has an owner. -/
theorem owner_newHead (hnew : (s.thread θ).pc.newHead = some a) :
    owner s (θ, (s.thread θ).hp_list_.length) = some a := by
  have hout : (s.thread θ).pc.handedOver (s.thread θ).hp_list_.length = false := by
    cases hpc : (s.thread θ).pc <;> rw [hpc] at hnew <;> first | rfl | cases hnew
  rw [owner, Reclaimer.slot, hout, List.getElem?_append_right (Nat.le_refl _), hnew]
  simp

/-- Two threads push different hazard pointers. -/
theorem newHead_ne {held : Finset Nat} (h : Sound held (owner s)) (hne : θ' ≠ θ)
    (ha : (s.thread θ).pc.newHead = some a) (hb : (s.thread θ').pc.newHead = some b) : b ≠ a := by
  rintro rfl
  have := h.unique _ _ _ (owner_newHead ha) (owner_newHead hb)
  exact hne (congrArg Prod.fst this).symm

/-! ### Whose `flag` is set -/

theorem mem_flagged : a ∈ flagged s ↔ a < s.fresh ∧ (s.heap a).flag := by
  rw [flagged, Finset.mem_filter, Finset.mem_range]

theorem flagged_writePtr (p : Nat) (ptr : Option P) : flagged (s.writePtr p ptr) = flagged s := by
  ext a
  rw [mem_flagged, mem_flagged]
  show a < s.fresh ∧ (Function.update s.heap p _ a).flag ↔ _
  rcases eq_or_ne a p with rfl | hne
  · rw [Function.update_self]
  · rw [Function.update_of_ne hne]

theorem flagged_writeNext (p q : Nat) : flagged (s.writeNext p q) = flagged s := by
  ext a
  rw [mem_flagged, mem_flagged]
  show a < s.fresh ∧ (Function.update s.heap p _ a).flag ↔ _
  rcases eq_or_ne a p with rfl | hne
  · rw [Function.update_self]
  · rw [Function.update_of_ne hne]

theorem flagged_set {p : Nat} (hp : p < s.fresh) :
    flagged (s.writeFlag p true) = insert p (flagged s) := by
  ext a
  rw [Finset.mem_insert, mem_flagged, mem_flagged]
  show a < s.fresh ∧ (Function.update s.heap p _ a).flag ↔ _
  rcases eq_or_ne a p with rfl | hne
  · simp [hp]
  · rw [Function.update_of_ne hne]
    simp [hne]

theorem flagged_clear (p : Nat) : flagged (s.writeFlag p false) = (flagged s).erase p := by
  ext a
  rw [Finset.mem_erase, mem_flagged, mem_flagged]
  show a < s.fresh ∧ (Function.update s.heap p _ a).flag ↔ _
  rcases eq_or_ne a p with rfl | hne
  · simp
  · rw [Function.update_of_ne hne]
    simp [hne]

theorem flagged_allocate : flagged ({ s with
    heap := Function.update s.heap s.fresh ⟨true, none, none⟩
    fresh := s.fresh + 1 } : State Θ P F) = insert s.fresh (flagged s) := by
  ext a
  rw [Finset.mem_insert, mem_flagged, mem_flagged]
  show a < s.fresh + 1 ∧ (Function.update s.heap s.fresh _ a).flag ↔ _
  rcases eq_or_ne a s.fresh with rfl | hne
  · simp
  · rw [Function.update_of_ne hne]
    simp only [hne, false_or]
    exact and_congr_left fun _ => by omega

/-! ### The invariant -/

/-- A step leaves the list as it is, or pushes the new head. -/
def Grows (s s' : State Θ P F) (l l' : List Nat) : Prop :=
  (l' = l ∧ s'.head = s.head) ∨ l' = s'.head :: l

theorem Grows.suffix {l' : List Nat} (h : Grows s s' l l') : l <:+ l' := by
  rcases h with ⟨rfl, -⟩ | rfl
  · exact List.suffix_rfl
  · exact List.suffix_cons _ l

/-- The list of hazard pointers is `l`, and what is flagged is what threads own, one thread each. -/
structure Inv (s : State Θ P F) (l : List Nat) : Prop extends Shape s l where
  owns : Owns (flagged s) (owner s)

namespace Inv

/-- A hazard pointer that is still to be pushed has its `flag` set. -/
theorem newHead_flagged (h : Inv s l) (hnew : (s.thread θ).pc.newHead = some a) : a ∈ flagged s :=
  h.owns.mem _ _ (owner_newHead hnew)

variable [DecidableEq Θ]

/-- One thread moves, with its hazard pointers as they are. -/
theorem setThread (h : Inv s l) {t : Reclaimer P F}
    (hslot : ∀ i, t.slot i = (s.thread θ).slot i) (hhp : t.hp_list_ = (s.thread θ).hp_list_)
    (hnew : t.pc.newHead = (s.thread θ).pc.newHead)
    (hlink : ∀ ptr a b, t.pc = .swapping ptr a b → s.next a = some b)
    (hcur : ∀ p, t.pc.cursor = some p → p ∈ l) : Inv (s.setThread θ t) l where
  toShape := h.toShape.setThread (hhp ▸ h.hp θ) (fun a ha => h.new θ a (hnew ▸ ha)) hlink hcur
  owns := by
    rw [owner_setThread_same hslot]
    exact h.owns

omit [DecidableEq Θ] in
theorem writePtr (h : Inv s l) (p : Nat) (ptr : Option P) : Inv (s.writePtr p ptr) l where
  toShape := h.toShape.writePtr p ptr
  owns := by
    rw [flagged_writePtr]
    exact h.owns

/-- A hazard pointer of the list is taken over. -/
theorem taken (h : Inv s l) {ptr : P} {p : Nat} (hpc : (s.thread θ).pc = .testing ptr p)
    (hflag : (s.heap p).flag = false) : Inv (acquired (s.writeFlag p true) θ ptr p) l := by
  have hp : p ∈ l := h.cursor θ p (by rw [hpc]; rfl)
  have hout : p ∉ flagged s := fun hm => by simp [(mem_flagged.mp hm).2] at hflag
  refine ⟨(h.toShape.writeFlag p true).setThread ?_ nofun nofun nofun, ?_⟩
  · intro a ha
    rcases List.mem_append.mp ha with ha | ha
    · exact h.hp θ a ha
    · exact List.mem_singleton.mp ha ▸ hp
  · obtain ⟨hnone, hown⟩ := owner_append (s := s.writeFlag p true) (θ := θ) (a := p)
      (t := ⟨(s.thread θ).hp_list_ ++ [p], (s.thread θ).store,
        .storing ptr (s.thread θ).hp_list_.length, (s.thread θ).index⟩)
      (fun i => by simp [Reclaimer.slot, State.writeFlag, hpc, Pc.handedOver, Pc.newHead])
      (fun i => by simp [Reclaimer.slot, State.writeFlag, Pc.handedOver, Pc.newHead])
    have := h.owns.acquire hout hnone
    rw [← flagged_set (h.lt p hp)] at this
    exact hown ▸ this

/-- A new hazard pointer is made. -/
theorem allocated (h : Inv s l) {ptr : P} {p : Nat} (hpc : (s.thread θ).pc = .following ptr p) :
    Inv (State.goto { s with
      heap := Function.update s.heap s.fresh ⟨true, none, none⟩
      fresh := s.fresh + 1 } θ (.counting ptr s.fresh)) l := by
  have hfresh : s.fresh ∉ l := fun hm => Nat.lt_irrefl _ (h.lt _ hm)
  have hout : s.fresh ∉ flagged s := fun hm => Nat.lt_irrefl _ (mem_flagged.mp hm).1
  have hnext : ∀ a, a < s.fresh →
      (Function.update s.heap s.fresh ⟨true, none, none⟩ a).next = s.next a := fun a ha => by
    rw [Function.update_of_ne (Nat.ne_of_lt ha)]
    rfl
  have hshape : Shape ({ s with
      heap := Function.update s.heap s.fresh ⟨true, none, none⟩
      fresh := s.fresh + 1 } : State Θ P F) l :=
    { chain := h.chain.frame fun a ha => hnext a (h.lt a ha)
      nodup := h.nodup
      lt := fun a ha => Nat.lt_succ_of_lt (h.lt a ha)
      new := fun θ' a ha => ⟨Nat.lt_succ_of_lt (h.new θ' a ha).1, (h.new θ' a ha).2⟩
      link := fun θ' ptr' a b hs => by
        refine (hnext a (h.new θ' a ?_).1).trans (h.link θ' ptr' a b hs)
        rw [hs]
        rfl
      cursor := h.cursor
      hp := h.hp }
  refine ⟨hshape.setThread (h.hp θ) ?_ nofun nofun, ?_⟩
  · intro a ha
    cases ha
    exact ⟨Nat.lt_succ_self _, hfresh⟩
  · obtain ⟨hnone, hown⟩ := owner_append (s := { s with
        heap := Function.update s.heap s.fresh ⟨true, none, none⟩
        fresh := s.fresh + 1 }) (θ := θ) (a := s.fresh)
      (t := { s.thread θ with pc := .counting ptr s.fresh })
      (fun i => by simp [Reclaimer.slot, hpc, Pc.handedOver, Pc.newHead])
      (fun i => by simp [Reclaimer.slot, Pc.handedOver, Pc.newHead])
    have := h.owns.acquire hout hnone
    rw [← flagged_allocate] at this
    exact hown ▸ this

/-- A new hazard pointer is made to point to the head. -/
theorem linked (h : Inv s l) {ptr : P} (hpc : (s.thread θ).pc = .linking ptr a b) :
    Inv ((s.writeNext a b).goto θ (.swapping ptr a b)) l := by
  have hnew : (s.thread θ).pc.newHead = some a := by rw [hpc]; rfl
  have hnext : ∀ c, c ≠ a → (s.writeNext a b).next c = s.next c := fun c hc => by
    show (Function.update s.heap a _ c).next = _
    rw [Function.update_of_ne hc]
    rfl
  have hself : (s.writeNext a b).next a = some b := by
    show (Function.update s.heap a _ a).next = _
    rw [Function.update_self]
  have hmid : Inv (s.writeNext a b) l :=
    { chain := h.chain.frame fun c hc => hnext c fun heq => (h.new θ a hnew).2 (heq ▸ hc)
      nodup := h.nodup
      lt := h.lt
      new := h.new
      link := fun θ' ptr' c d hs => by
        -- the others point where they did, as theirs are other ones
        have hne : θ' ≠ θ := by
          rintro rfl
          cases hpc.symm.trans hs
        have hc : (s.thread θ').pc.newHead = some c := by
          show (((s.writeNext a b).thread θ').pc).newHead = _
          rw [hs]
          rfl
        rw [hnext c (newHead_ne h.owns.toSound hne hnew hc)]
        exact h.link θ' ptr' c d hs
      cursor := h.cursor
      hp := h.hp
      owns := by
        rw [flagged_writeNext]
        exact h.owns }
  refine hmid.setThread (fun i => ?_) rfl hnew.symm (fun ptr' c d hs => ?_) nofun
  · show _ = (s.thread θ).slot i
    simp [Reclaimer.slot, State.writeNext, hpc, Pc.handedOver, Pc.newHead]
  · cases hs
    exact hself

/-- A new hazard pointer becomes the head. -/
theorem pushed (h : Inv s l) {ptr : P} (hpc : (s.thread θ).pc = .swapping ptr a s.head) :
    Inv (acquired { s with head := a } θ ptr a) (a :: l) := by
  have hnew : (s.thread θ).pc.newHead = some a := by rw [hpc]; rfl
  obtain ⟨hlt, hout⟩ := h.new θ a hnew
  have hslot : ∀ i, ((s.thread θ).hp_list_ ++ [a])[i]? = (s.thread θ).slot i := fun i => by
    simp [Reclaimer.slot, hpc, Pc.handedOver, Pc.newHead]
  have hother : ∀ {θ' b}, θ' ≠ θ → (s.thread θ').pc.newHead = some b → b ∉ a :: l := by
    intro θ' b hne hb hm
    rcases List.mem_cons.mp hm with rfl | hm
    · exact newHead_ne h.owns.toSound hne hnew hb rfl
    · exact (h.new θ' b hb).2 hm
  refine ⟨⟨⟨rfl, ?_⟩, List.nodup_cons.mpr ⟨hout, h.nodup⟩, ?_, ?_, ?_, ?_, ?_⟩, ?_⟩
  · show Chain s.next (s.next a) l none
    rw [h.link θ ptr a s.head hpc]
    exact h.chain
  · intro c hc
    rcases List.mem_cons.mp hc with rfl | hc
    · exact hlt
    · exact h.lt c hc
  · intro θ' b hb
    rcases eq_or_ne θ' θ with rfl | hne
    · rw [acquired, State.setThread_self] at hb
      cases hb
    · rw [acquired, State.setThread_of_ne _ _ hne] at hb
      exact ⟨(h.new θ' b hb).1, hother hne hb⟩
  · exact State.forall_thread
      (Q := fun t => ∀ ptr b c, t.pc = .swapping ptr b c → s.next b = some c) nofun h.link
  · exact State.forall_thread (Q := fun t => ∀ p, t.pc.cursor = some p → p ∈ a :: l) nofun
      fun θ' p hp => List.mem_cons_of_mem a (h.cursor θ' p hp)
  · refine State.forall_thread (Q := fun t => ∀ p ∈ t.hp_list_, p ∈ a :: l) (fun p hp => ?_)
      fun θ' p hp => List.mem_cons_of_mem a (h.hp θ' p hp)
    rcases List.mem_append.mp hp with hp | hp
    · exact List.mem_cons_of_mem a (h.hp θ p hp)
    · exact List.mem_singleton.mp hp ▸ List.mem_cons_self
  · have hown : owner (acquired { s with head := a } θ ptr a) = owner s :=
      owner_setThread_same (s := { s with head := a }) fun i => by
        rw [← show _ = (s.thread θ).slot i from hslot i]
        simp [Reclaimer.slot, Pc.handedOver, Pc.newHead]
    rw [hown]
    exact h.owns

/-- The destructor hands a hazard pointer over. -/
theorem cleared (h : Inv s l) {i hp : Nat} (hpc : (s.thread θ).pc = .releasing i)
    (hi : (s.thread θ).hp_list_[i]? = some hp) :
    Inv ((s.writeFlag hp false).goto θ (.releasing (i + 1))) l := by
  refine ⟨(h.toShape.writeFlag hp false).setThread (h.hp θ) nofun nofun nofun, ?_⟩
  have howner : owner s (θ, i) = some hp :=
    owner_hp hi (by rw [hpc]; simp [Pc.handedOver])
  have hown := h.owns.release howner
  rw [← flagged_clear] at hown
  show Owns (flagged (s.writeFlag hp false)) (owner (State.setThread _ _ _))
  rw [owner_setThread (k := i)]
  · have hnone : Reclaimer.slot { s.thread θ with pc := .releasing (i + 1) } i = none := by
      simp [Reclaimer.slot, Pc.handedOver]
    exact hnone ▸ hown
  · intro j hj
    show _ = (s.thread θ).slot j
    have hiff : (j < i + 1) = (j < i) := propext (by omega)
    simp [Reclaimer.slot, hpc, Pc.handedOver, Pc.newHead, State.writeFlag, hiff]

variable [DecidableEq P]

/-- **Step.** Every step keeps the invariant, and the list grows at its head only. -/
theorem step (h : Inv s l) {u : Option (Call P F)} (he : Effect s θ u s') : 
    ∃ l', Inv s' l' ∧ Grows s s' l l' := by
  have hgoto : ∀ {pc : Pc P}, Move s θ (s.thread θ).pc pc → Inv (s.goto θ pc) l := fun hm =>
    ⟨h.toShape.goto hm.newHead hm.ne_swapping fun p hp => hm.cursor h.toShape (h.cursor θ) hp,
      by rw [hm.owner]; exact h.owns⟩
  cases he with
  | same => exact ⟨l, h, .inl ⟨rfl, rfl⟩⟩
  | null =>
    exact ⟨l, h.setThread (fun _ => rfl) rfl rfl (h.link θ) (h.cursor θ), .inl ⟨rfl, rfl⟩⟩
  | move hm => exact ⟨l, hgoto hm, .inl ⟨rfl, rfl⟩⟩
  | unmark hu hpc hi => exact ⟨l, h.writePtr _ none, .inl ⟨rfl, rfl⟩⟩
  | @later ptr func hu hpc =>
    have hi := h.setThread (θ := θ) (t := { s.thread θ with
      store := (s.thread θ).store.ReclaimLater ptr func }) (fun _ => rfl) rfl rfl (h.link θ)
        (h.cursor θ)
    exact ⟨l, ⟨hi.toShape.log, hi.owns⟩, .inl ⟨rfl, rfl⟩⟩
  | store hpc hi =>
    refine ⟨l, (h.writePtr _ _).setThread (fun i => ?_) rfl ?_ nofun nofun, .inl ⟨rfl, rfl⟩⟩
    · show _ = (s.thread θ).slot i
      simp [Reclaimer.slot, hpc, Pc.handedOver, Pc.newHead]
    · show _ = (s.thread θ).pc.newHead
      rw [hpc]
      rfl
  | take hpc hflag => exact ⟨l, h.taken hpc hflag, .inl ⟨rfl, rfl⟩⟩
  | allocate hpc => exact ⟨l, h.allocated hpc, .inl ⟨rfl, rfl⟩⟩
  | @count ptr a hpc =>
    have hi := h.setThread (θ := θ) (t := { s.thread θ with pc := .loading ptr a })
      (fun i => by simp [Reclaimer.slot, hpc, Pc.handedOver, Pc.newHead]) rfl
      (by rw [hpc]; rfl) nofun nofun
    exact ⟨l, ⟨hi.toShape.log, hi.owns⟩, .inl ⟨rfl, rfl⟩⟩
  | link hpc => exact ⟨l, h.linked hpc, .inl ⟨rfl, rfl⟩⟩
  | push hpc => exact ⟨_, h.pushed hpc, .inr rfl⟩
  | clear hpc hi hptr => exact ⟨l, h.cleared hpc hi, .inl ⟨rfl, rfl⟩⟩
  | @delete push key pc c store hpc htake =>
    have hpcs : (∀ i, pc.handedOver i = (s.thread θ).pc.handedOver i) ∧
        pc.newHead = (s.thread θ).pc.newHead ∧ pc.cursor = none ∧
        ∀ ptr a b, pc ≠ .swapping ptr a b := by
      rcases hpc with ⟨todo, set, hpc, -, -, rfl⟩ | ⟨todo, p, hpc, -, rfl⟩ <;> rw [hpc] <;>
        exact ⟨fun _ => rfl, rfl, rfl, nofun⟩
    obtain ⟨hout, hnew, hcur, hlink⟩ := hpcs
    have hi := h.setThread (θ := θ) (t := { s.thread θ with store := store, pc := pc })
      (fun i => by simp only [Reclaimer.slot, hout, hnew]) rfl hnew
      (fun ptr a b hs => absurd hs (hlink ptr a b)) (by rw [hcur]; nofun)
    exact ⟨l, ⟨hi.toShape.log, hi.owns⟩, .inl ⟨rfl, rfl⟩⟩

omit [DecidableEq P] [DecidableEq Θ] in
theorem initial : Inv (Hazard.initial : State Θ P F) [0] where
  chain := ⟨rfl, rfl⟩
  nodup := List.nodup_singleton 0
  lt := by simp [Hazard.initial]
  new := nofun
  link := nofun
  cursor := nofun
  hp := by simp [Hazard.initial]
  owns := by
    refine ⟨⟨fun o a ho => ?_, fun o o' a ho _ => ?_⟩, fun a ha => ?_⟩
    · simp [owner, Reclaimer.slot, Hazard.initial, Pc.handedOver, Pc.newHead] at ho
    · simp [owner, Reclaimer.slot, Hazard.initial, Pc.handedOver, Pc.newHead] at ho
    · simp [flagged, Hazard.initial] at ha

end Inv

/-- **Run.** The invariant holds in every reachable state. -/
theorem reachable_inv [DecidableEq Θ] [DecidableEq P] {G : State Θ P F → Action Θ P F → Prop}
    (h : (system Θ P F).ReachableUnder G s) : ∃ l, Inv s l := by
  refine h.invariant (I := fun s => ∃ l, Inv s l) ?_ ?_
  · rintro _ rfl
    exact ⟨[0], .initial⟩
  · rintro s a s' ⟨l, hl⟩ - hs
    obtain ⟨l', hl', -⟩ := hl.step (step_effect hs)
    exact ⟨l', hl'⟩

/-- **Ownership.** In every reachable state the hazard pointers of the list are different ones, all
    that threads have are among them, and a `flag` is set exactly if one thread has the hazard
    pointer, at one index. -/
theorem flagged_owned [DecidableEq Θ] [DecidableEq P] (h : (system Θ P F).Reachable s) :
    ∃ l, Chain s.next (some s.head) l none ∧ l.Nodup ∧
      (∀ θ, ∀ a ∈ (s.thread θ).hp_list_, a ∈ l) ∧ Owns (flagged s) (owner s) := by
  obtain ⟨l, hl⟩ := reachable_inv h
  exact ⟨l, hl.chain, hl.nodup, hl.hp, hl.owns⟩

/-- A thread marks the pointer 7 in a new list. -/
def marking : List (Action Bool Nat Unit) :=
  .call false (.MarkHazard (some 7)) :: List.replicate 4 (.run false true)

/-- The state after this. -/
def marked : State Bool Nat Unit := ((system Bool Nat Unit).exec initial marking).getD initial

theorem marked_reachable : (system Bool Nat Unit).Reachable marked := by
  have hr : (system Bool Nat Unit).exec initial marking = some marked := rfl
  exact LTS.reachable_of_exec rfl hr

theorem flagged_owned_marked : ∃ l, Chain marked.next (some marked.head) l none ∧ l.Nodup ∧
    (∀ θ, ∀ a ∈ (marked.thread θ).hp_list_, a ∈ l) ∧ Owns (flagged marked) (owner marked) :=
  flagged_owned marked_reachable

end LimWebserver.Hazard
