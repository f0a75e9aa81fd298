import LimWebserver.Lib.Ownership
import LimWebserver.Lib.Transition
import Mathlib.Data.Int.Bitwise
import Mathlib.Data.UInt

namespace LimWebserver.FdManager

open LimWebserver.Lib

/-!
# Coroutine — `FdManager`

Any number of threads call `create`, `get` and `del`.  The section that holds the lock of a bucket
is one step, the section that holds the lock of a slot is another one, and between the two a thread
has the pointer to the slot in its hands.

* `State`, `threadStep` — the buckets, the slots and the threads;
* `Place`, `State.owner` — a `FdInfo` that has not been closed is in one slot, or with one thread;
* `Inv` — the invariant; `inv_step` — one lemma for each kind of step;
* `Managed` — what `get` returns and what is closed; `reachable_managed`.
-/

/-- Program points of a thread. -/
inductive ThreadPc
  | idle
  /-- `insert`: the section of the bucket -/
  | insertBucket (fd : Int32) (info : Nat)
  /-- `insert`: the section of the slot -/
  | insertSlot (fd : Int32) (info slot : Nat)
  /-- `get`: `getSlot` -/
  | getBucket (fd : Int32)
  /-- `get`: the section of the slot -/
  | getSlot (fd : Int32) (slot : Nat)
  /-- `get` has its result -/
  | getReturn (fd : Int32) (info : Option Nat)
  /-- `del`: `getSlot` -/
  | delBucket (fd : Int32)
  /-- `del`: the section of the slot -/
  | delSlot (fd : Int32) (slot : Nat)
  /-- `insert` and `del`: `close()` of what was in the slot -/
  | close (info : Nat)
  deriving DecidableEq, Repr

namespace ThreadPc

/-- The `FdInfo` that a thread puts into a slot. -/
def inserting : ThreadPc → Option Nat
  | .insertBucket _ info | .insertSlot _ info _ => some info
  | _ => none

/-- The `FdInfo` that a thread puts into a slot or closes. -/
def holds : ThreadPc → Option Nat
  | .insertBucket _ info | .insertSlot _ info _ | .close info => some info
  | _ => none

/-- The slot that a thread has found. -/
def found : ThreadPc → Option (Int32 × Nat)
  | .insertSlot fd _ slot | .getSlot fd slot | .delSlot fd slot => some (fd, slot)
  | _ => none

end ThreadPc

/-- The tables, the threads and what has happened so far. -/
structure State (Θ : Type*) where
  /-- the buckets, each with the addresses of its slots -/
  m_buckets : Int32 → Int32 → Option Nat
  /-- how many slots there are -/
  slots : Nat
  /-- what is in a slot, by its address -/
  data_ : Nat → Option Nat
  /-- how many `FdInfo`s have been built -/
  infos : Nat
  /-- how often `close()` has been called on a `FdInfo` -/
  closed : Nat → Nat
  thread : Θ → ThreadPc
  /-- what has been swapped into the slots, the latest first -/
  swaps : List (Int32 × Option Nat)

/-- The calls. -/
inductive Action (Θ : Type*)
  | create (θ : Θ) (fd : Int32)
  | get (θ : Θ) (fd : Int32)
  | del (θ : Θ) (fd : Int32)
  /-- the next step of the call that a thread is in -/
  | run (θ : Θ)
  deriving DecidableEq, Repr

def kBucketShift : Int32 := 10

def kBucketCount : Int32 := (1 <<< kBucketShift) - 1

/-- `int bucketIdx = fd & kBucketCount;` -/
def bucketIdx (fd : Int32) : Int32 := fd &&& kBucketCount

variable {Θ : Type*}

namespace State

/-- `m_buckets[bucketIdx].find(fd)` -/
def find (s : State Θ) (fd : Int32) : Option Nat := s.m_buckets (bucketIdx fd) fd

/-- `slot.reset(new FdSlot)` -/
def newSlot (s : State Θ) (fd : Int32) : State Θ :=
  { s with
    m_buckets := Function.update s.m_buckets (bucketIdx fd)
      (Function.update (s.m_buckets (bucketIdx fd)) fd (some s.slots))
    slots := s.slots + 1
    data_ := Function.update s.data_ s.slots none }

end State

section
variable [DecidableEq Θ]

/-- Move thread `θ` to program point `pc`. -/
def State.goto (s : State Θ) (θ : Θ) (pc : ThreadPc) : State Θ :=
  { s with thread := Function.update s.thread θ pc }

/-- Thread `θ` swaps `info` into a slot, and closes what was there next. -/
def State.swap (s : State Θ) (θ : Θ) (fd : Int32) (slot : Nat) (info : Option Nat) : State Θ :=
  { s.goto θ (match s.data_ slot with
      | some old => .close old
      | none => .idle) with
    data_ := Function.update s.data_ slot info
    swaps := (fd, info) :: s.swaps }

/-- The next step of thread `θ`, which stands at the given program point. -/
def threadStep (s : State Θ) (θ : Θ) : ThreadPc → Option (State Θ)
  | .idle => none
  | .insertBucket fd info =>
    match s.find fd with
    | some slot => some (s.goto θ (.insertSlot fd info slot))
    | none => some ((s.newSlot fd).goto θ (.insertSlot fd info s.slots))
  | .insertSlot fd info slot => some (s.swap θ fd slot (some info))
  | .getBucket fd =>
    match s.find fd with
    | some slot => some (s.goto θ (.getSlot fd slot))
    | none => some (s.goto θ (.getReturn fd none))
  | .getSlot fd slot => some (s.goto θ (.getReturn fd (s.data_ slot)))
  | .getReturn _ _ => some (s.goto θ .idle)
  | .delBucket fd =>
    match s.find fd with
    | some slot => some (s.goto θ (.delSlot fd slot))
    | none => some (s.goto θ .idle)
  | .delSlot fd slot => some (s.swap θ fd slot none)
  | .close info => some { s.goto θ .idle with
      closed := Function.update s.closed info (s.closed info + 1) }

/-- One step of the system. -/
def step (s : State Θ) : Action Θ → Option (State Θ)
  | .create θ fd =>
    if s.thread θ = .idle then
      some { s.goto θ (.insertBucket fd s.infos) with infos := s.infos + 1 }
    else none
  | .get θ fd => if s.thread θ = .idle then some (s.goto θ (.getBucket fd)) else none
  | .del θ fd => if s.thread θ = .idle then some (s.goto θ (.delBucket fd)) else none
  | .run θ => threadStep s θ (s.thread θ)

/-- Empty tables. -/
def initial : State Θ where
  m_buckets := fun _ _ => none
  slots := 0
  data_ := fun _ => none
  infos := 0
  closed := fun _ => 0
  thread := fun _ => .idle
  swaps := []

/-- The system of all threads. -/
def system (Θ : Type*) [DecidableEq Θ] : LTS (State Θ) (Action Θ) where
  init := fun s => s = initial
  step := step

end

/-! ### Who has a `FdInfo` -/

/-- Where a `FdInfo` can be. -/
inductive Place (Θ : Type*)
  | thread (θ : Θ)
  | slot (slot : Nat)
  deriving DecidableEq

namespace State

/-- The `FdInfo` at a place. -/
def owner (s : State Θ) : Place Θ → Option Nat
  | .thread θ => (s.thread θ).holds
  | .slot slot => s.data_ slot

/-- What was last swapped into the slot of `fd`, null at first and after `del`. -/
def recent (s : State Θ) (fd : Int32) : Option Nat :=
  (s.swaps.find? fun x => x.1 = fd).bind Prod.snd

/-- The `FdInfo` has been inserted. -/
def Inserted (s : State Θ) (info : Nat) : Prop := ∃ fd, (fd, some info) ∈ s.swaps

/-- The `FdInfo` is in the table. -/
def InTable (s : State Θ) (info : Nat) : Prop := ∃ fd slot, s.find fd = some slot ∧
  s.data_ slot = some info

end State

/-- The invariant. -/
structure Inv (s : State Θ) (held : Finset Nat) : Prop where
  /-- every `FdInfo` that has not been closed is at one place -/
  owns : Owns held s.owner
  built : ∀ info ∈ held, info < s.infos
  closed : ∀ info, s.closed info = if info < s.infos ∧ info ∉ held then 1 else 0
  inserted : ∀ info, s.Inserted info ↔ info < s.infos ∧ ∀ θ, (s.thread θ).inserting ≠ some info
  /-- no two descriptors have one slot -/
  slots : ∀ fd slot, s.find fd = some slot → slot < s.slots
  apart : ∀ fd fd' slot, s.find fd = some slot → s.find fd' = some slot → fd = fd'
  filled : ∀ slot info, s.data_ slot = some info → ∃ fd, s.find fd = some slot
  found : ∀ θ fd slot, (s.thread θ).found = some (fd, slot) → s.find fd = some slot
  recent : ∀ fd, s.recent fd = (s.find fd).bind s.data_

theorem inv_initial : Inv (initial : State Θ) ∅ := by
  constructor
  case owns => exact ⟨⟨by rintro (θ | n) a ⟨⟩, by rintro (θ | n) j a ⟨⟩⟩, by simp⟩
  all_goals simp [initial, State.Inserted, State.find, State.recent, ThreadPc.found]

/-- A thread that puts a `FdInfo` into a slot has it. -/
theorem holds_of_inserting {pc : ThreadPc} {info : Nat} (h : pc.inserting = some info) :
    pc.holds = some info := by
  cases pc <;> simp_all [ThreadPc.inserting, ThreadPc.holds]

theorem find_newSlot (s : State Θ) (fd fd' : Int32) :
    (s.newSlot fd).find fd' = if fd' = fd then some s.slots else s.find fd' := by
  simp only [State.newSlot, State.find]
  rcases eq_or_ne fd' fd with rfl | hne
  · rw [Function.update_self, Function.update_self, if_pos rfl]
  · rw [if_neg hne]
    -- another descriptor may have the same bucket
    rcases eq_or_ne (bucketIdx fd') (bucketIdx fd) with hidx | hidx
    · rw [hidx, Function.update_self, Function.update_of_ne hne]
    · rw [Function.update_of_ne hidx]

/-- A new slot, empty and nobody's before. -/
theorem Inv.newSlot {s : State Θ} {held : Finset Nat} {fd : Int32} (hI : Inv s held)
    (hfd : s.find fd = none) : Inv (s.newSlot fd) held := by
  have hempty : s.data_ s.slots = none := by
    rw [Option.eq_none_iff_forall_ne_some]
    intro info hinfo
    obtain ⟨fd', hfd'⟩ := hI.filled s.slots info hinfo
    exact lt_irrefl _ (hI.slots fd' s.slots hfd')
  have hdata : (s.newSlot fd).data_ = s.data_ := by
    show Function.update s.data_ s.slots none = s.data_
    rw [← hempty, Function.update_eq_self]
  -- what had a slot keeps it
  have hfind : ∀ {fd' slot}, s.find fd' = some slot → (s.newSlot fd).find fd' = some slot := by
    intro fd' slot h
    rw [find_newSlot, if_neg, h]
    rintro rfl
    rw [hfd] at h
    cases h
  constructor
  case owns =>
    have howner : (s.newSlot fd).owner = s.owner := by
      funext place
      cases place with
      | thread θ => rfl
      | slot slot => exact congrFun hdata slot
    rw [howner]
    exact hI.owns
  case built => exact hI.built
  case closed => exact hI.closed
  case inserted => exact hI.inserted
  case slots =>
    intro fd' slot h
    show slot < s.slots + 1
    rw [find_newSlot] at h
    split at h
    · cases h
      exact Nat.lt_succ_self _
    · exact (hI.slots fd' slot h).trans (Nat.lt_succ_self _)
  case apart =>
    intro fd₁ fd₂ slot h₁ h₂
    rw [find_newSlot] at h₁ h₂
    split at h₁ <;> split at h₂
    · simp_all
    · cases h₁
      exact absurd (hI.slots fd₂ _ h₂) (lt_irrefl _)
    · cases h₂
      exact absurd (hI.slots fd₁ _ h₁) (lt_irrefl _)
    · exact hI.apart fd₁ fd₂ slot h₁ h₂
  case filled =>
    intro slot info h
    rw [hdata] at h
    obtain ⟨fd', hfd'⟩ := hI.filled slot info h
    exact ⟨fd', hfind hfd'⟩
  case found => exact fun θ fd' slot h => hfind (hI.found θ fd' slot h)
  case recent =>
    intro fd'
    rw [hdata]
    apply (hI.recent fd').trans
    rw [find_newSlot]
    split
    · rename_i heq
      rw [heq, hfd]
      exact hempty.symm
    · rfl

section
variable [DecidableEq Θ] {s : State Θ} {held : Finset Nat} {θ : Θ}

theorem goto_self (s : State Θ) (θ : Θ) (pc : ThreadPc) : (s.goto θ pc).thread θ = pc :=
  Function.update_self _ _ _

theorem goto_other {θ' : Θ} (s : State Θ) (pc : ThreadPc) (hne : θ' ≠ θ) :
    (s.goto θ pc).thread θ' = s.thread θ' :=
  Function.update_of_ne hne _ _

theorem owner_goto (s : State Θ) (θ : Θ) (pc : ThreadPc) :
    (s.goto θ pc).owner = Function.update s.owner (.thread θ) pc.holds := by
  funext place
  cases place with
  | thread θ' =>
    show ((s.goto θ pc).thread θ').holds = _
    rcases eq_or_ne θ' θ with rfl | hne
    · rw [goto_self, Function.update_self]
    · rw [goto_other s pc hne, Function.update_of_ne (by simpa using hne)]
      rfl
  | slot slot => exact (Function.update_of_ne (by simp) _ _).symm

theorem Inv.found_goto {pc : ThreadPc} (hI : Inv s held)
    (hfound : ∀ fd slot, pc.found = some (fd, slot) → s.find fd = some slot) (θ' : Θ) (fd : Int32)
    (slot : Nat) (h : ((s.goto θ pc).thread θ').found = some (fd, slot)) :
    s.find fd = some slot := by
  rcases eq_or_ne θ' θ with rfl | hne
  · rw [goto_self] at h
    exact hfound fd slot h
  · rw [goto_other s pc hne] at h
    exact hI.found θ' fd slot h

/-- A step that moves `θ` only. -/
theorem Inv.goto {pc : ThreadPc} (hI : Inv s held) (hholds : pc.holds = (s.thread θ).holds)
    (hins : pc.inserting = (s.thread θ).inserting)
    (hfound : ∀ fd slot, pc.found = some (fd, slot) → s.find fd = some slot) :
    Inv (s.goto θ pc) held := by
  constructor
  case owns =>
    have howner : (s.goto θ pc).owner = s.owner := by
      rw [owner_goto, hholds]
      exact Function.update_eq_self _ _
    rw [howner]
    exact hI.owns
  case built => exact hI.built
  case closed => exact hI.closed
  case inserted =>
    intro info
    refine (hI.inserted info).trans (and_congr_right fun _ => forall_congr' fun θ' => ?_)
    rcases eq_or_ne θ' θ with rfl | hne
    · rw [goto_self, hins]
    · rw [goto_other s pc hne]
  case slots => exact hI.slots
  case apart => exact hI.apart
  case filled => exact hI.filled
  case found => exact hI.found_goto hfound
  case recent => exact hI.recent

/-- After the swap a thread has what was in the slot. -/
theorem swap_self (s : State Θ) (θ : Θ) (fd : Int32) (slot : Nat) (info : Option Nat) :
    ((s.swap θ fd slot info).thread θ).holds = s.data_ slot ∧
      ((s.swap θ fd slot info).thread θ).inserting = none ∧
      ((s.swap θ fd slot info).thread θ).found = none := by
  simp only [State.swap, State.goto, Function.update_self]
  split
  · rename_i old hold
    exact ⟨hold.symm, rfl, rfl⟩
  · rename_i hnone
    exact ⟨hnone.symm, rfl, rfl⟩

theorem swap_other {θ' : Θ} (s : State Θ) (fd : Int32) (slot : Nat) (info : Option Nat)
    (hne : θ' ≠ θ) : (s.swap θ fd slot info).thread θ' = s.thread θ' :=
  Function.update_of_ne hne _ _

/-- The thread and the slot exchange what they have, and nobody else has anything else. -/
theorem owner_swap {info : Option Nat} (fd : Int32) (slot : Nat)
    (hholds : (s.thread θ).holds = info) :
    (s.swap θ fd slot info).owner = s.owner ∘ Equiv.swap (.thread θ) (.slot slot) := by
  funext place
  rw [Function.comp_apply]
  cases place with
  | thread θ' =>
    rcases eq_or_ne θ' θ with rfl | hne
    · rw [Equiv.swap_apply_left]
      exact (swap_self s θ' fd slot info).1
    · rw [Equiv.swap_apply_of_ne_of_ne (by simpa using hne) (by simp)]
      exact congrArg ThreadPc.holds (swap_other s fd slot info hne)
  | slot slot' =>
    show Function.update s.data_ slot info slot' = _
    rcases eq_or_ne slot' slot with rfl | hne
    · rw [Equiv.swap_apply_right, Function.update_self]
      exact hholds.symm
    · rw [Equiv.swap_apply_of_ne_of_ne (by simp) (by simpa using hne), Function.update_of_ne hne]
      rfl

/-- What is swapped in counts as inserted. -/
theorem inserted_swap (s : State Θ) (θ : Θ) (fd : Int32) (slot : Nat) (info : Option Nat)
    (i : Nat) : (s.swap θ fd slot info).Inserted i ↔ info = some i ∨ s.Inserted i := by
  simp only [State.Inserted, State.swap, List.mem_cons, Prod.mk.injEq, exists_or, exists_eq_left]
  exact or_congr_left eq_comm

/-- A step that puts what `θ` has into a slot, and gives it what was there. -/
theorem Inv.swap {fd : Int32} {slot : Nat} {info : Option Nat} (hI : Inv s held)
    (hfd : s.find fd = some slot) (hholds : (s.thread θ).holds = info)
    (hins : (s.thread θ).inserting = info) : Inv (s.swap θ fd slot info) held := by
  obtain ⟨-, hinserting, hfound⟩ := swap_self s θ fd slot info
  have hother : ∀ θ', θ' ≠ θ → (s.swap θ fd slot info).thread θ' = s.thread θ' :=
    fun θ' hne => swap_other s fd slot info hne
  constructor
  case owns =>
    rw [owner_swap fd slot hholds]
    exact hI.owns.swap _ _
  case built => exact hI.built
  case closed => exact hI.closed
  case inserted =>
    intro i
    rw [inserted_swap, hI.inserted]
    constructor
    · rintro (rfl | ⟨hlt, hnot⟩)
      · refine ⟨hI.built i (hI.owns.mem (.thread θ) i hholds), fun θ' h => ?_⟩
        rcases eq_or_ne θ' θ with rfl | hne
        · rw [hinserting] at h
          cases h
        · -- nobody else has it
          rw [hother θ' hne] at h
          have hplace := hI.owns.unique (.thread θ') (.thread θ) i (holds_of_inserting h) hholds
          exact hne (Place.thread.inj hplace)
      · refine ⟨hlt, fun θ' h => ?_⟩
        rcases eq_or_ne θ' θ with rfl | hne
        · rw [hinserting] at h
          cases h
        · exact hnot θ' (hother θ' hne ▸ h)
    · rintro ⟨hlt, hnot⟩
      -- what nobody is about to insert now was this one, or nobody's before
      refine or_iff_not_imp_left.mpr fun hinfo => ⟨hlt, fun θ' h => ?_⟩
      rcases eq_or_ne θ' θ with rfl | hne
      · exact hinfo (hins.symm.trans h)
      · exact hnot θ' (by rw [hother θ' hne, h])
  case slots => exact hI.slots
  case apart => exact hI.apart
  case filled =>
    intro slot' i h
    rcases eq_or_ne slot' slot with rfl | hne
    · exact ⟨fd, hfd⟩
    · have hdata : (s.swap θ fd slot info).data_ slot' = s.data_ slot' :=
        Function.update_of_ne hne _ _
      exact hI.filled slot' i (hdata.symm.trans h)
  case found =>
    intro θ' fd' slot' h
    rcases eq_or_ne θ' θ with rfl | hne
    · rw [hfound] at h
      cases h
    · rw [hother θ' hne] at h
      exact hI.found θ' fd' slot' h
  case recent =>
    intro fd'
    show (((fd, info) :: s.swaps).find? fun x => x.1 = fd').bind Prod.snd =
      (s.find fd').bind (Function.update s.data_ slot info)
    rcases eq_or_ne fd fd' with rfl | hne
    · rw [List.find?_cons_of_pos (by simp), hfd]
      simp
    · -- another descriptor has another slot
      rw [List.find?_cons_of_neg (by simpa using hne)]
      apply (hI.recent fd').trans
      cases hfd' : s.find fd' with
      | none => rfl
      | some slot' =>
        have hslot : slot' ≠ slot := by
          rintro rfl
          exact hne (hI.apart fd fd' slot' hfd hfd')
        exact (Function.update_of_ne hslot _ _).symm

/-- `create` builds a `FdInfo`. -/
theorem Inv.create (hI : Inv s held) (hθ : s.thread θ = .idle) (fd : Int32) :
    Inv { s.goto θ (.insertBucket fd s.infos) with infos := s.infos + 1 }
      (insert s.infos held) := by
  have hnew : s.infos ∉ held := fun h => lt_irrefl _ (hI.built _ h)
  constructor
  case owns =>
    have howner : ({ s.goto θ (.insertBucket fd s.infos) with infos := s.infos + 1 }).owner =
        Function.update s.owner (.thread θ) (some s.infos) := owner_goto s θ _
    rw [howner]
    exact hI.owns.acquire hnew (congrArg ThreadPc.holds hθ)
  case built =>
    intro info hinfo
    show info < s.infos + 1
    rcases Finset.mem_insert.mp hinfo with rfl | hinfo
    · exact Nat.lt_succ_self _
    · exact (hI.built info hinfo).trans (Nat.lt_succ_self _)
  case closed =>
    intro info
    apply (hI.closed info).trans
    show _ = if info < s.infos + 1 ∧ info ∉ insert s.infos held then 1 else 0
    simp only [Finset.mem_insert, not_or]
    congr 1
    rw [eq_iff_iff, ← and_assoc]
    exact and_congr_left fun _ => by omega
  case inserted =>
    intro info
    apply (hI.inserted info).trans
    constructor
    · rintro ⟨hlt, hnot⟩
      refine ⟨hlt.trans (Nat.lt_succ_self _), fun θ' h => ?_⟩
      rcases eq_or_ne θ' θ with rfl | hne
      · rw [goto_self] at h
        exact hlt.ne' (Option.some.inj h)
      · exact hnot θ' (goto_other s _ hne ▸ h)
    · rintro ⟨hlt, hnot⟩
      -- the new one is with its thread
      have hne : info ≠ s.infos := by
        rintro rfl
        exact hnot θ (by rw [goto_self]; rfl)
      refine ⟨lt_of_le_of_ne (Nat.lt_succ_iff.mp hlt) hne, fun θ' h => hnot θ' ?_⟩
      have hne' : θ' ≠ θ := by
        rintro rfl
        rw [hθ] at h
        cases h
      rw [goto_other s _ hne', h]
  case slots => exact hI.slots
  case apart => exact hI.apart
  case filled => exact hI.filled
  case found => exact hI.found_goto nofun
  case recent => exact hI.recent

/-- `close()` of the `FdInfo` that `θ` has. -/
theorem Inv.close {info : Nat} (hI : Inv s held) (hθ : s.thread θ = .close info) :
    Inv { s.goto θ .idle with closed := Function.update s.closed info (s.closed info + 1) }
      (held.erase info) := by
  have hholds : s.owner (.thread θ) = some info := congrArg ThreadPc.holds hθ
  have hmem := hI.owns.mem _ _ hholds
  constructor
  case owns =>
    have howner : ({ s.goto θ .idle with
        closed := Function.update s.closed info (s.closed info + 1) }).owner =
        Function.update s.owner (.thread θ) none := owner_goto s θ _
    rw [howner]
    exact hI.owns.release hholds
  case built => exact fun i hi => hI.built i (Finset.mem_of_mem_erase hi)
  case closed =>
    intro i
    show Function.update s.closed info (s.closed info + 1) i = _
    rcases eq_or_ne i info with rfl | hne
    · rw [Function.update_self, hI.closed, if_neg (fun h => h.2 hmem), if_pos]
      exact ⟨hI.built i hmem, Finset.notMem_erase i held⟩
    · rw [Function.update_of_ne hne, hI.closed]
      simp only [Finset.mem_erase, ne_eq, hne, not_false_eq_true, true_and]
      rfl
  case inserted =>
    intro i
    refine (hI.inserted i).trans (and_congr_right fun _ => forall_congr' fun θ' => ?_)
    show _ ↔ ((s.goto θ .idle).thread θ').inserting ≠ _
    rcases eq_or_ne θ' θ with rfl | hne
    · rw [goto_self, hθ]
      rfl
    · rw [goto_other s _ hne]
  case slots => exact hI.slots
  case apart => exact hI.apart
  case filled => exact hI.filled
  case found => exact hI.found_goto nofun
  case recent => exact hI.recent

/-- Every step keeps the invariant. -/
theorem inv_step {s' : State Θ} {a : Action Θ} (hI : Inv s held) (h : step s a = some s') :
    ∃ held', Inv s' held' := by
  cases a with
  | create θ fd =>
    simp only [step] at h
    split at h <;> cases h
    exact ⟨_, hI.create ‹_› fd⟩
  | get θ fd | del θ fd =>
    simp only [step] at h
    split at h <;> cases h
    rename_i hθ
    exact ⟨held, hI.goto (by rw [hθ]; rfl) (by rw [hθ]; rfl) (by simp [ThreadPc.found])⟩
  | run θ =>
    simp only [step] at h
    cases hpc : s.thread θ <;> simp only [threadStep, hpc] at h
    case idle => cases h
    case insertBucket fd info =>
      split at h <;> cases h
      · rename_i slot hfd
        refine ⟨held, hI.goto (by rw [hpc]; rfl) (by rw [hpc]; rfl) ?_⟩
        rintro fd' slot' ⟨⟩
        exact hfd
      · rename_i hfd
        have hpc' : (s.newSlot fd).thread θ = .insertBucket fd info := hpc
        refine ⟨held, (hI.newSlot hfd).goto (by rw [hpc']; rfl) (by rw [hpc']; rfl) ?_⟩
        rintro fd' slot' ⟨⟩
        rw [find_newSlot, if_pos rfl]
    case insertSlot fd info slot =>
      cases h
      exact ⟨held, hI.swap (hI.found θ fd slot (by rw [hpc]; rfl)) (by rw [hpc]; rfl)
        (by rw [hpc]; rfl)⟩
    case getBucket fd | delBucket fd =>
      split at h <;> cases h
      · rename_i slot hfd
        refine ⟨held, hI.goto (by rw [hpc]; rfl) (by rw [hpc]; rfl) ?_⟩
        rintro fd' slot' ⟨⟩
        exact hfd
      · exact ⟨held, hI.goto (by rw [hpc]; rfl) (by rw [hpc]; rfl) (by simp [ThreadPc.found])⟩
    case getSlot fd slot | getReturn fd info =>
      cases h
      exact ⟨held, hI.goto (by rw [hpc]; rfl) (by rw [hpc]; rfl) (by simp [ThreadPc.found])⟩
    case delSlot fd slot =>
      cases h
      exact ⟨held, hI.swap (hI.found θ fd slot (by rw [hpc]; rfl)) (by rw [hpc]; rfl)
        (by rw [hpc]; rfl)⟩
    case close info =>
      cases h
      exact ⟨held.erase info, hI.close hpc⟩

/-! ### Every interleaving -/

/-- What `get` returns and what is closed. -/
structure Managed (s : State Θ) : Prop where
  /-- `get` takes what was last swapped into the slot of `fd` -/
  get : ∀ θ s' fd info, step s (.run θ) = some s' → s'.thread θ = .getReturn fd info →
    info = s.recent fd
  once : ∀ info, s.closed info ≤ 1
  /-- between calls what has been inserted is in the table or has been closed -/
  quiet : (∀ θ, s.thread θ = .idle) → ∀ info,
    (s.Inserted info ∧ ¬ s.InTable info → s.closed info = 1) ∧
    (¬ (s.Inserted info ∧ ¬ s.InTable info) → s.closed info = 0)

/-- The two ways in which `get` comes to its result. -/
theorem getReturn_of_step {s' : State Θ} {fd : Int32} {info : Option Nat}
    (h : threadStep s θ (s.thread θ) = some s') (hpc' : s'.thread θ = .getReturn fd info) :
    (s.find fd = none ∧ info = none) ∨
      (∃ slot, s.thread θ = .getSlot fd slot ∧ info = s.data_ slot) := by
  have hmove : ∀ {t : State Θ} {pc : ThreadPc}, s'.thread θ = (t.goto θ pc).thread θ →
      pc = .getReturn fd info := by
    intro t pc heq
    rw [← hpc', heq, goto_self]
  cases hpc : s.thread θ <;> simp only [threadStep, hpc] at h
  case idle => cases h
  -- no other step ends at `getReturn`
  case insertBucket fd' info' => split at h <;> cases h <;> cases hmove rfl
  case insertSlot fd' info' slot | delSlot fd' slot =>
    cases h
    cases hdata : s.data_ slot with
    | none =>
      have hidle : ThreadPc.idle = .getReturn fd info :=
        hmove (t := s) (by simp only [State.swap, hdata])
      cases hidle
    | some old =>
      have hclose : ThreadPc.close old = .getReturn fd info :=
        hmove (t := s) (by simp only [State.swap, hdata])
      cases hclose
  case getBucket fd' =>
    split at h <;> cases h <;> cases hmove rfl
    exact .inl ⟨‹_›, rfl⟩
  case getSlot fd' slot =>
    cases h
    cases hmove rfl
    exact .inr ⟨slot, rfl, rfl⟩
  case getReturn fd' info' => cases h; cases hmove rfl
  case delBucket fd' => split at h <;> cases h <;> cases hmove rfl
  case close info' =>
    cases h
    have hidle : ThreadPc.idle = .getReturn fd info := hmove (t := s) rfl
    cases hidle

theorem Inv.managed (hI : Inv s held) : Managed s := by
  refine ⟨fun θ s' fd info hstep hpc' => ?_, fun info => ?_, fun hidle info => ?_⟩
  · rw [hI.recent]
    rcases getReturn_of_step hstep hpc' with ⟨hfd, rfl⟩ | ⟨slot, hpc, rfl⟩
    · rw [hfd]
      rfl
    · rw [hI.found θ fd slot (by rw [hpc]; rfl)]
      rfl
  · rw [hI.closed]
    split <;> simp
  · have hlt : s.Inserted info ↔ info < s.infos := by
      rw [hI.inserted]
      apply and_iff_left
      intro θ
      rw [hidle θ]
      simp [ThreadPc.inserting]
    -- with all threads idle only the slots have anything
    have hmem : s.InTable info ↔ info ∈ held := by
      constructor
      · rintro ⟨fd, slot, -, hdata⟩
        exact hI.owns.mem (.slot slot) info hdata
      · intro hin
        obtain ⟨place, hplace⟩ := hI.owns.owned info hin
        cases place with
        | thread θ =>
          rw [State.owner, hidle θ] at hplace
          cases hplace
        | slot slot =>
          obtain ⟨fd, hfd⟩ := hI.filled slot info hplace
          exact ⟨fd, slot, hfd, hplace⟩
    rw [hlt, hmem, hI.closed]
    exact ⟨fun h => if_pos h, fun h => if_neg h⟩

end

end LimWebserver.FdManager
