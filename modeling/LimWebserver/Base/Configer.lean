import LimWebserver.Lib.Transition
import Mathlib.Data.Finset.Basic
import Mathlib.Data.List.Chain

namespace LimWebserver.Configer

open LimWebserver.Lib

/-!
# Base — `ConfigerVar::setValue` and its listeners

`setValue(v)` compares `v` with `m_val` and calls every listener under the read lock, and stores `v`
under the write lock.  Any number of threads call it; a comparison, one call of a listener and the
assignment are one step each.

* `Callbacks` — the registered listeners;
* `State`, `step` — the value, the lock, and what each listener has been told;
* `Delivered` — what the listeners are promised when all calls have returned;
* `setValue_misorders` — two calls notify in one order and store in the other;
* `Alone` — no call compares while another one is between its comparison and its assignment;
* `delivered_iff_alone` — exactly the runs that keep the promise.
-/

/-- The keys of `m_callback_map`, in the order of its iteration. -/
structure Callbacks (L : Type*) where
  keys : List L
  nodup : keys.Nodup

/-- Program points of a thread in `setValue(v)`. -/
inductive Pc (L T : Type*)
  | idle
  /-- holds the read lock; the listeners that are still to be called -/
  | notify (v : T) (rest : List L)
  /-- about to take the write lock -/
  | store (v : T)

structure State (Θ L T : Type*) where
  m_val : T
  /-- the threads that hold the read lock of `m_mutex` -/
  readers : Finset Θ
  pc : Θ → Pc L T
  /-- the old and new values that each listener has been called with -/
  notes : L → List (T × T)

inductive Action (Θ T : Type*)
  /-- `setValue(v)` is called and compares -/
  | compare (θ : Θ) (v : T)
  | notify (θ : Θ)
  | store (θ : Θ)

variable {Θ L T : Type*}

/-! ### Notifications -/

section Notes

variable {default_val v w : T} {notes : List (T × T)}

/-- The value that a listener keeps which copies each new value, from `default_val` on. -/
def cached (default_val : T) (notes : List (T × T)) : T :=
  (notes.getLast?.map Prod.snd).getD default_val

/-- Each notification begins where the one before it ended. -/
def Chained (notes : List (T × T)) : Prop := notes.IsChain fun a b => a.2 = b.1

theorem cached_append (default_val v w : T) (notes : List (T × T)) :
    cached default_val (notes ++ [(w, v)]) = v := by
  rw [cached, List.getLast?_append, List.getLast?_singleton, Option.some_or, Option.map_some,
    Option.getD_some]

/-- A notification continues the chain when it begins with the value last told. -/
theorem chained_append : Chained (notes ++ [(w, v)]) ↔
    Chained notes ∧ ∀ a ∈ notes.getLast?, a.2 = w := by
  simp [Chained, List.isChain_append]

theorem Chained.append (h : Chained notes) (hw : cached default_val notes = w) :
    Chained (notes ++ [(w, v)]) := by
  refine chained_append.mpr ⟨h, fun a ha => ?_⟩
  rw [cached, Option.mem_def.mp ha, Option.map_some, Option.getD_some] at hw
  exact hw

/-- A notification that begins with another value breaks the chain. -/
theorem not_chained_append (hne : notes ≠ []) (hw : cached default_val notes ≠ w) :
    ¬ Chained (notes ++ [(w, v)]) := by
  intro h
  have ha := List.getLast?_eq_some_getLast hne
  have hlast := (chained_append.mp h).2 _ (Option.mem_def.mpr ha)
  rw [cached, ha, Option.map_some, Option.getD_some] at hw
  exact hw hlast

end Notes

section Pc

/-- The thread has still to call the listener. -/
def Pc.Pending (l : L) : Pc L T → Prop
  | .notify _ rest => l ∈ rest
  | _ => False

/-- The thread has called the listener. -/
def Pc.Past (l : L) : Pc L T → Prop
  | .idle => False
  | .notify _ rest => l ∉ rest
  | .store _ => True

/-- Where a call is with the listeners `rest` before it. -/
def Pc.before (v : T) : List L → Pc L T
  | [] => .store v
  | l :: rest => .notify v (l :: rest)

variable {v : T} {rest : List L} {l : L}

theorem pending_before : (Pc.before v rest).Pending l ↔ l ∈ rest := by
  cases rest with
  | nil => exact iff_of_false (fun h => h) (by simp)
  | cons l' rest => exact Iff.rfl

theorem past_before : (Pc.before v rest).Past l ↔ l ∉ rest := by
  cases rest with
  | nil => exact iff_of_true trivial (by simp)
  | cons l' rest => exact Iff.rfl

end Pc

/-! ### `setValue` -/

variable [DecidableEq Θ]

/-- The next listener, or the end of the section with the read lock. -/
def State.goOn (s : State Θ L T) (θ : Θ) (v : T) : List L → State Θ L T
  | [] => { s with pc := Function.update s.pc θ (.store v), readers := s.readers.erase θ }
  | l :: rest =>
    { s with pc := Function.update s.pc θ (.notify v (l :: rest)), readers := insert θ s.readers }

theorem goOn_spec (s : State Θ L T) (θ : Θ) (v : T) (rest : List L) :
    (s.goOn θ v rest).m_val = s.m_val ∧ (s.goOn θ v rest).notes = s.notes ∧
      (s.goOn θ v rest).pc = Function.update s.pc θ (.before v rest) ∧
      ∀ θ', θ' ∈ (s.goOn θ v rest).readers ↔
        (θ' = θ ∧ rest ≠ []) ∨ (θ' ≠ θ ∧ θ' ∈ s.readers) := by
  cases rest with
  | nil =>
    refine ⟨rfl, rfl, rfl, fun θ' => ?_⟩
    show θ' ∈ s.readers.erase θ ↔ _
    simp
  | cons l rest =>
    refine ⟨rfl, rfl, rfl, fun θ' => ?_⟩
    show θ' ∈ insert θ s.readers ↔ _
    by_cases h : θ' = θ <;> simp [h]

variable [DecidableEq L] [DecidableEq T]

def step (m_callback_map : Callbacks L) (s : State Θ L T) : Action Θ T → Option (State Θ L T)
  | .compare θ v =>
    match s.pc θ with
    -- `if (v == m_val) return;`, which gives the read lock back
    | .idle => if v = s.m_val then some s else some (s.goOn θ v m_callback_map.keys)
    | _ => none
  | .notify θ =>
    match s.pc θ with
    | .notify v (l :: rest) =>
      -- `i.second(m_val, v)`: the old value is read anew for each listener
      let s := { s with notes := Function.update s.notes l (s.notes l ++ [(s.m_val, v)]) }
      some (s.goOn θ v rest)
    | _ => none
  | .store θ =>
    match s.pc θ with
    | .store v =>
      -- the write lock waits for all readers
      if s.readers = ∅ then some { s with m_val := v, pc := Function.update s.pc θ .idle }
      else none
    | _ => none

def initial (default_val : T) : State Θ L T := ⟨default_val, ∅, fun _ => .idle, fun _ => []⟩

def system (Θ : Type*) [DecidableEq Θ] (m_callback_map : Callbacks L) (default_val : T) :
    LTS (State Θ L T) (Action Θ T) where
  init := fun s => s = initial default_val
  step := step m_callback_map

/-! ### What the listeners are promised -/

/-- All calls have returned. -/
def Quiet (s : State Θ L T) : Prop := ∀ θ, s.pc θ = .idle

/-- **What the listeners are promised**: each has last been told the value, and its notifications
    chain. -/
structure Delivered (m_callback_map : Callbacks L) (default_val : T) (s : State Θ L T) : Prop where
  cached : ∀ l ∈ m_callback_map.keys, cached default_val (s.notes l) = s.m_val
  chained : ∀ l ∈ m_callback_map.keys, Chained (s.notes l)

/-- A call that finds another value makes its comparison when no call is between its comparison and
    its assignment, or there is no listener. -/
def Alone (m_callback_map : Callbacks L) (s : State Θ L T) : Action Θ T → Prop
  | .compare _ v => v = s.m_val ∨ m_callback_map.keys = [] ∨ Quiet s
  | _ => True

/-! ### What holds in every run -/

section Inv

variable {m_callback_map : Callbacks L} {default_val : T} {s s' : State Θ L T} {θ : Θ} {l : L}
  {v : T} {rest : List L}

/-- Who holds the lock, and what a call that holds it is about. -/
structure Inv (m_callback_map : Callbacks L) (s : State Θ L T) : Prop where
  readers : ∀ θ, θ ∈ s.readers ↔ ∃ v rest, s.pc θ = .notify v rest
  notify : ∀ θ v rest, s.pc θ = .notify v rest → v ≠ s.m_val ∧ rest ≠ [] ∧ rest.Nodup ∧
    ∀ l ∈ rest, l ∈ m_callback_map.keys
  past : ∀ θ, ∀ l ∈ m_callback_map.keys, (s.pc θ).Past l → s.notes l ≠ []

omit [DecidableEq L] [DecidableEq T] in
theorem Inv.goOn (h : Inv m_callback_map s) (θ : Θ) (hv : v ≠ s.m_val) (hnodup : rest.Nodup)
    (hsub : ∀ l ∈ rest, l ∈ m_callback_map.keys)
    (hpast : ∀ l ∈ m_callback_map.keys, l ∉ rest → s.notes l ≠ []) :
    Inv m_callback_map (s.goOn θ v rest) := by
  obtain ⟨hval, hnotes, hpc, hreaders⟩ := goOn_spec s θ v rest
  refine ⟨fun θ' => ?_, fun θ' w r hr => ?_, fun θ' l hl hp => ?_⟩
  · rw [hreaders, hpc]
    by_cases hθ : θ' = θ
    · rw [hθ, Function.update_self]
      cases rest with
      | nil => simp [Pc.before]
      | cons l rest => simp [Pc.before]
    · rw [Function.update_of_ne hθ, ← h.readers]
      simp [hθ]
  · rw [hpc] at hr
    rw [hval]
    by_cases hθ : θ' = θ
    · rw [hθ, Function.update_self] at hr
      cases rest with
      | nil => exact absurd hr (by rintro ⟨⟩)
      | cons l rest =>
        obtain ⟨rfl, rfl⟩ := Pc.notify.inj hr
        exact ⟨hv, by simp, hnodup, hsub⟩
    · rw [Function.update_of_ne hθ] at hr
      exact h.notify θ' w r hr
  · rw [hpc] at hp
    rw [hnotes]
    by_cases hθ : θ' = θ
    · rw [hθ, Function.update_self, past_before] at hp
      exact hpast l hl hp
    · rw [Function.update_of_ne hθ] at hp
      exact h.past θ' l hl hp

omit [DecidableEq Θ] [DecidableEq T] in
/-- A listener is told something. -/
theorem Inv.tell (h : Inv m_callback_map s) (l : L) (note : T × T) :
    Inv m_callback_map
      { s with notes := Function.update s.notes l (s.notes l ++ [note]) } := by
  refine ⟨h.readers, h.notify, fun θ l' hl' hp => ?_⟩
  show Function.update s.notes l (s.notes l ++ [note]) l' ≠ []
  by_cases hl : l' = l
  · rw [hl, Function.update_self]
    exact List.append_ne_nil_of_right_ne_nil _ (by simp)
  · rw [Function.update_of_ne hl]
    exact h.past θ l' hl' hp

omit [DecidableEq Θ] [DecidableEq L] [DecidableEq T] in
theorem inv_initial : Inv m_callback_map (initial default_val : State Θ L T) where
  readers := fun _ => iff_of_false (Finset.notMem_empty _) nofun
  notify := nofun
  past := nofun

/-- **What a step does.** -/
theorem step_cases {a : Action Θ T} (hs : step m_callback_map s a = some s') :
    (∃ θ v, a = .compare θ v ∧ s.pc θ = .idle ∧
      (v = s.m_val ∧ s' = s ∨ v ≠ s.m_val ∧ s' = s.goOn θ v m_callback_map.keys)) ∨
    (∃ θ v l rest, a = .notify θ ∧ s.pc θ = .notify v (l :: rest) ∧ s' = State.goOn
      { s with notes := Function.update s.notes l (s.notes l ++ [(s.m_val, v)]) } θ v rest) ∨
    ∃ θ v, a = .store θ ∧ s.pc θ = .store v ∧ s.readers = ∅ ∧
      s' = { s with m_val := v, pc := Function.update s.pc θ .idle } := by
  cases a with
  | compare θ v =>
    simp only [step] at hs
    split at hs
    · rename_i hidle
      refine .inl ⟨θ, v, rfl, hidle, ?_⟩
      split at hs
      · exact .inl ⟨‹_›, (Option.some.inj hs).symm⟩
      · exact .inr ⟨‹_›, (Option.some.inj hs).symm⟩
    · exact absurd hs (by simp)
  | notify θ =>
    simp only [step] at hs
    split at hs
    · rename_i v l rest hpc
      exact .inr (.inl ⟨θ, v, l, rest, rfl, hpc, (Option.some.inj hs).symm⟩)
    · exact absurd hs (by simp)
  | store θ =>
    simp only [step] at hs
    split at hs
    · rename_i v hpc
      split at hs
      · exact .inr (.inr ⟨θ, v, rfl, hpc, ‹_›, (Option.some.inj hs).symm⟩)
      · exact absurd hs (by simp)
    · exact absurd hs (by simp)

theorem inv_step {a : Action Θ T} (h : Inv m_callback_map s)
    (hs : step m_callback_map s a = some s') : Inv m_callback_map s' := by
  obtain ⟨θ, v, rfl, hpc, ⟨-, rfl⟩ | ⟨hv, rfl⟩⟩ | ⟨θ, v, l, rest, rfl, hpc, rfl⟩ |
    ⟨θ, v, rfl, hpc, hreaders, rfl⟩ := step_cases hs
  · exact h
  · exact h.goOn θ hv m_callback_map.nodup (fun _ hl => hl) fun l hl hn => absurd hl hn
  · -- the listener that has been called has a note, and is not called again
    obtain ⟨hv, -, hnodup, hsub⟩ := h.notify θ v (l :: rest) hpc
    refine (h.tell l _).goOn θ hv (List.nodup_cons.mp hnodup).2
      (fun l' hl' => hsub l' (List.mem_cons_of_mem _ hl')) fun l' hl' hn => ?_
    show Function.update s.notes l (s.notes l ++ [(s.m_val, v)]) l' ≠ []
    by_cases hl : l' = l
    · rw [hl, Function.update_self]
      exact List.append_ne_nil_of_right_ne_nil _ (by simp)
    · rw [Function.update_of_ne hl]
      apply h.past θ l' hl'
      rw [hpc]
      exact fun hmem => (List.mem_cons.mp hmem).elim hl hn
  · -- nobody is in the section with the read lock
    have hnone : ∀ θ' w r, s.pc θ' ≠ .notify w r := fun θ' w r hr => by
      have hmem := (h.readers θ').mpr ⟨w, r, hr⟩
      rw [hreaders] at hmem
      exact absurd hmem (Finset.notMem_empty _)
    have hnone' : ∀ θ' w r, Function.update s.pc θ .idle θ' ≠ .notify w r := fun θ' w r hr => by
      by_cases hθ : θ' = θ
      · rw [hθ, Function.update_self] at hr
        exact absurd hr (by simp)
      · rw [Function.update_of_ne hθ] at hr
        exact hnone θ' w r hr
    refine ⟨fun θ' => ?_, fun θ' w r hr => absurd hr (hnone' θ' w r), fun θ' l hl hp => ?_⟩
    · show θ' ∈ s.readers ↔ _
      rw [hreaders]
      exact iff_of_false (Finset.notMem_empty _) fun ⟨w, r, hr⟩ => hnone' θ' w r hr
    · have hp : (Function.update s.pc θ .idle θ').Past l := hp
      by_cases hθ : θ' = θ
      · rw [hθ, Function.update_self] at hp
        exact absurd hp id
      · rw [Function.update_of_ne hθ] at hp
        exact h.past θ' l hl hp

end Inv

/-! ### Calls that do not overlap -/

section Solo

/-- What a listener has last been told, when one call is at this point and the others are idle. -/
def Pc.told (m_val : T) (l : L) : Pc L T → T
  | .idle => m_val
  | .notify v rest => if l ∈ rest then m_val else v
  | .store v => v

/-- The value that is about to be stored is another one. -/
def Pc.Differs (m_val : T) : Pc L T → Prop
  | .store v => v ≠ m_val
  | _ => True

/-- One call at most is not idle, and the listeners have been told what it has told them. -/
structure Solo (m_callback_map : Callbacks L) (default_val : T) (s : State Θ L T) : Prop where
  chained : ∀ l ∈ m_callback_map.keys, Chained (s.notes l)
  told : (Quiet s ∧ ∀ l ∈ m_callback_map.keys, cached default_val (s.notes l) = s.m_val) ∨
    ∃ θ, (∀ θ', θ' ≠ θ → s.pc θ' = .idle) ∧ s.pc θ ≠ .idle ∧ (s.pc θ).Differs s.m_val ∧
      ∀ l ∈ m_callback_map.keys, cached default_val (s.notes l) = (s.pc θ).told s.m_val l

variable {m_callback_map : Callbacks L} {default_val : T} {s s' : State Θ L T} {θ : Θ} {l : L}
  {v : T} {rest : List L}

omit [DecidableEq T] in
theorem told_before (m_val : T) (l : L) (v : T) (rest : List L) :
    (Pc.before v rest).told m_val l = if l ∈ rest then m_val else v := by
  cases rest with
  | nil => rw [if_neg List.not_mem_nil]; rfl
  | cons l' rest => rfl

omit [DecidableEq T] in
/-- The call that is not idle. -/
theorem Solo.at (h : Solo m_callback_map default_val s) (hpc : s.pc θ ≠ .idle) :
    (∀ θ', θ' ≠ θ → s.pc θ' = .idle) ∧ (s.pc θ).Differs s.m_val ∧
      ∀ l ∈ m_callback_map.keys, cached default_val (s.notes l) = (s.pc θ).told s.m_val l := by
  rcases h.told with ⟨hquiet, -⟩ | ⟨θ₁, hothers, -, hdiff, htold⟩
  · exact absurd (hquiet θ) hpc
  · have hθ : θ = θ₁ := by
      by_contra hne
      exact hpc (hothers θ hne)
    subst hθ
    exact ⟨hothers, hdiff, htold⟩

omit [DecidableEq T] in
/-- A call that goes on, of which the listeners have been told what it says. -/
theorem Solo.goOn (hchained : ∀ l ∈ m_callback_map.keys, Chained (s.notes l))
    (hothers : ∀ θ', θ' ≠ θ → s.pc θ' = .idle) (hv : v ≠ s.m_val)
    (htold : ∀ l ∈ m_callback_map.keys,
      cached default_val (s.notes l) = if l ∈ rest then s.m_val else v) :
    Solo m_callback_map default_val (s.goOn θ v rest) := by
  obtain ⟨hval, hnotes, hpc, -⟩ := goOn_spec s θ v rest
  refine ⟨?_, .inr ⟨θ, fun θ' hθ => ?_, ?_, ?_, fun l hl => ?_⟩⟩
  · rw [hnotes]
    exact hchained
  · rw [hpc, Function.update_of_ne hθ]
    exact hothers θ' hθ
  · rw [hpc, Function.update_self]
    cases rest <;> rintro ⟨⟩
  · rw [hpc, Function.update_self, hval]
    cases rest with
    | nil => exact hv
    | cons l rest => trivial
  · rw [hpc, Function.update_self, hnotes, hval, told_before]
    exact htold l hl

/-- **Step lemma.** A step that meets the condition keeps the calls apart. -/
theorem Solo.step {a : Action Θ T} (h : Solo m_callback_map default_val s)
    (hinv : Inv m_callback_map s) (ha : Alone m_callback_map s a)
    (hkeys : m_callback_map.keys ≠ []) (hs : step m_callback_map s a = some s') :
    Solo m_callback_map default_val s' := by
  obtain ⟨θ, v, rfl, hpc, ⟨-, rfl⟩ | ⟨hv, rfl⟩⟩ | ⟨θ, v, l, rest, rfl, hpc, rfl⟩ |
    ⟨θ, v, rfl, hpc, -, rfl⟩ := step_cases hs
  · exact h
  · -- no other call is under way, so each listener has been told the value
    have hquiet : Quiet s := (ha.resolve_left hv).resolve_left hkeys
    have htold : ∀ l ∈ m_callback_map.keys, cached default_val (s.notes l) = s.m_val := by
      rcases h.told with ⟨-, htold⟩ | ⟨θ₁, -, hne, -⟩
      · exact htold
      · exact absurd (hquiet θ₁) hne
    apply Solo.goOn h.chained (fun θ' _ => hquiet θ') hv
    intro l hl
    rw [if_pos hl]
    exact htold l hl
  · obtain ⟨hothers, -, htold⟩ := h.at (θ := θ) (by rw [hpc]; simp)
    obtain ⟨hv, -, hnodup, hsub⟩ := hinv.notify θ v (l :: rest) hpc
    have hl := hsub l List.mem_cons_self
    -- the listener has been told the value, from which the notification starts
    have hcached : cached default_val (s.notes l) = s.m_val := by
      rw [htold l hl, hpc]
      exact if_pos List.mem_cons_self
    refine Solo.goOn (fun l' hl' => ?_) hothers hv fun l' hl' => ?_
    · show Chained (Function.update s.notes l (s.notes l ++ [(s.m_val, v)]) l')
      by_cases heq : l' = l
      · rw [heq, Function.update_self]
        exact (h.chained l hl).append hcached
      · rw [Function.update_of_ne heq]
        exact h.chained l' hl'
    · show cached default_val (Function.update s.notes l (s.notes l ++ [(s.m_val, v)]) l') = _
      by_cases heq : l' = l
      · rw [heq, Function.update_self, cached_append, if_neg (List.nodup_cons.mp hnodup).1]
      · rw [Function.update_of_ne heq, htold l' hl', hpc]
        simp only [Pc.told, List.mem_cons, heq, false_or]
  · -- the store: all listeners have been told what is now the value
    obtain ⟨hothers, -, htold⟩ := h.at (θ := θ) (by rw [hpc]; simp)
    refine ⟨h.chained, .inl ⟨fun θ' => ?_, fun l hl => ?_⟩⟩
    · show Function.update s.pc θ .idle θ' = .idle
      by_cases hθ : θ' = θ
      · rw [hθ, Function.update_self]
      · rw [Function.update_of_ne hθ]
        exact hothers θ' hθ
    · show cached default_val (s.notes l) = v
      rw [htold l hl, hpc]
      rfl

end Solo

/-! ### Calls that overlap -/

section Clash

variable {m_callback_map : Callbacks L} {default_val : T} {s s' : State Θ L T}

/-- A listener whose notifications do not chain, or will not: it is still to be called with a value
    that it has not last been told, or by two calls. -/
def Clash (default_val : T) (s : State Θ L T) (l : L) : Prop :=
  ¬ Chained (s.notes l) ∨
  (s.notes l ≠ [] ∧ cached default_val (s.notes l) ≠ s.m_val ∧ ∃ θ, (s.pc θ).Pending l) ∨
  ∃ θ θ', θ ≠ θ' ∧ (s.pc θ).Pending l ∧ (s.pc θ').Pending l

/-- **A clash stays** until the chain is broken, and then too. -/
theorem clash_step {a : Action Θ T} {l : L} (hinv : Inv m_callback_map s)
    (h : Clash default_val s l) (hs : step m_callback_map s a = some s') :
    Clash default_val s' l := by
  obtain ⟨θ₀, v, rfl, hpc, ⟨-, rfl⟩ | ⟨hv, rfl⟩⟩ | ⟨θ₀, v, l₀, rest, rfl, hpc, rfl⟩ |
    ⟨θ₀, v, rfl, hpc, hreaders, rfl⟩ := step_cases hs
  · exact h
  · -- the call that begins was idle, and so not pending
    obtain ⟨hval, hnotes, hpc', -⟩ := goOn_spec s θ₀ v m_callback_map.keys
    have hpending : ∀ θ, (s.pc θ).Pending l →
        ((s.goOn θ₀ v m_callback_map.keys).pc θ).Pending l := by
      intro θ hθ
      have hne : θ ≠ θ₀ := by
        rintro rfl
        rw [hpc] at hθ
        exact hθ
      rw [hpc', Function.update_of_ne hne]
      exact hθ
    unfold Clash
    rw [hnotes, hval]
    exact h.imp id (Or.imp (fun ⟨hne, hc, θ, hθ⟩ => ⟨hne, hc, θ, hpending θ hθ⟩)
      fun ⟨θ, θ', hne, hθ, hθ'⟩ => ⟨θ, θ', hne, hpending θ hθ, hpending θ' hθ'⟩)
  · obtain ⟨hval, hnotes, hpc', -⟩ := goOn_spec
      { s with notes := Function.update s.notes l₀ (s.notes l₀ ++ [(s.m_val, v)]) } θ₀ v rest
    have hpending : ∀ θ, (s.pc θ).Pending l → θ ≠ θ₀ ∨ l ≠ l₀ →
        (Function.update s.pc θ₀ (Pc.before v rest) θ).Pending l := by
      intro θ hθ hor
      by_cases hne : θ = θ₀
      · rw [hne, Function.update_self, pending_before]
        rw [hne, hpc] at hθ
        exact (List.mem_cons.mp hθ).resolve_left (hor.resolve_left (not_not_intro hne))
      · rw [Function.update_of_ne hne]
        exact hθ
    unfold Clash
    rw [hnotes, hval, hpc']
    dsimp only
    by_cases hl : l = l₀
    · subst hl
      rw [Function.update_self]
      rcases h with hch | ⟨hne, hc, -⟩ | ⟨θ, θ', hne, hθ, hθ'⟩
      · exact .inl fun h' => hch (chained_append.mp h').1
      · exact .inl (not_chained_append hne hc)
      · -- one of the two has called it, and the other one will
        refine .inr (.inl ⟨List.append_ne_nil_of_right_ne_nil _ (by simp), ?_, ?_⟩)
        · rw [cached_append]
          exact (hinv.notify θ₀ v (l :: rest) hpc).1
        · by_cases hθ₀ : θ = θ₀
          · exact ⟨θ', hpending θ' hθ' (.inl fun h' => hne (hθ₀.trans h'.symm))⟩
          · exact ⟨θ, hpending θ hθ (.inl hθ₀)⟩
    · rw [Function.update_of_ne hl]
      exact h.imp id (Or.imp (fun ⟨hne, hc, θ, hθ⟩ => ⟨hne, hc, θ, hpending θ hθ (.inr hl)⟩)
        fun ⟨θ, θ', hne, hθ, hθ'⟩ =>
          ⟨θ, θ', hne, hpending θ hθ (.inr hl), hpending θ' hθ' (.inr hl)⟩)
  · -- while a listener is to be called the lock is held
    have hnone : ∀ θ, ¬ (s.pc θ).Pending l := by
      intro θ hθ
      have hmem : θ ∈ s.readers := by
        rw [hinv.readers]
        cases hp : s.pc θ with
        | notify w r => exact ⟨w, r, rfl⟩
        | idle => rw [hp] at hθ; exact absurd hθ id
        | store w => rw [hp] at hθ; exact absurd hθ id
      rw [hreaders] at hmem
      exact absurd hmem (Finset.notMem_empty _)
    -- so only a broken chain is left, and the store calls nobody
    rcases h with hch | ⟨-, -, θ, hθ⟩ | ⟨θ, -, -, hθ, -⟩
    · exact .inl hch
    · exact absurd hθ (hnone θ)
    · exact absurd hθ (hnone θ)

/-- A comparison that does not meet the condition makes a clash. -/
theorem clash_of_not_alone {a : Action Θ T} (hinv : Inv m_callback_map s)
    (h : Solo m_callback_map default_val s) (ha : ¬ Alone m_callback_map s a)
    (hs : step m_callback_map s a = some s') :
    ∃ l ∈ m_callback_map.keys, Clash default_val s' l := by
  obtain ⟨θ, v, rfl, hpc, ⟨hv, rfl⟩ | ⟨hv, rfl⟩⟩ | ⟨θ, v, l, rest, rfl, hpc, rfl⟩ |
    ⟨θ, v, rfl, hpc, -, rfl⟩ := step_cases hs
  · exact absurd (.inl hv) ha
  · obtain ⟨hkeys, hquiet⟩ := not_or.mp (not_or.mp ha).2
    obtain ⟨θ₁, hθ₁⟩ := not_forall.mp hquiet
    obtain ⟨-, hdiff, htold⟩ := h.at hθ₁
    have hne : θ₁ ≠ θ := by
      rintro rfl
      exact hθ₁ hpc
    obtain ⟨hval, hnotes, hpc', -⟩ := goOn_spec s θ v m_callback_map.keys
    -- this call has all listeners before it
    have hpending : ∀ l ∈ m_callback_map.keys,
        ((s.goOn θ v m_callback_map.keys).pc θ).Pending l := by
      intro l hl
      rw [hpc', Function.update_self, pending_before]
      exact hl
    cases hp : s.pc θ₁ with
    | idle => exact absurd hp hθ₁
    | store w =>
      -- the other call has told `w`, and this one will begin with `m_val`
      obtain ⟨l, hl⟩ := List.exists_mem_of_ne_nil _ hkeys
      rw [hp] at hdiff htold
      refine ⟨l, hl, .inr (.inl ⟨?_, ?_, θ, hpending l hl⟩)⟩
      · rw [hnotes]
        exact hinv.past θ₁ l hl (by rw [hp]; trivial)
      · rw [hnotes, hval, htold l hl]
        exact hdiff
    | notify w r =>
      -- both calls have a listener before them
      obtain ⟨-, hr, -, hsub⟩ := hinv.notify θ₁ w r hp
      obtain ⟨l, hl⟩ := List.exists_mem_of_ne_nil _ hr
      refine ⟨l, hsub l hl, .inr (.inr ⟨θ, θ₁, hne.symm, hpending l (hsub l hl), ?_⟩)⟩
      rw [hpc', Function.update_of_ne hne, hp]
      exact hl
  · exact absurd trivial ha
  · exact absurd trivial ha

omit [DecidableEq T] in
/-- Where calls are kept apart there is no clash. -/
theorem Solo.not_clash {l : L} (h : Solo m_callback_map default_val s)
    (hl : l ∈ m_callback_map.keys) : ¬ Clash default_val s l := by
  have hpc : ∀ θ, (s.pc θ).Pending l → s.pc θ ≠ .idle := by
    intro θ hθ hidle
    rw [hidle] at hθ
    exact hθ
  rintro (hch | ⟨-, hc, θ, hθ⟩ | ⟨θ, θ', hne, hθ, hθ'⟩)
  · exact hch (h.chained l hl)
  · obtain ⟨-, -, htold⟩ := h.at (hpc θ hθ)
    refine hc ((htold l hl).trans ?_)
    cases hp : s.pc θ with
    | notify w r =>
      rw [hp] at hθ
      exact if_pos hθ
    | idle => exact absurd hp (hpc θ hθ)
    | store w => rw [hp] at hθ; exact absurd hθ id
  · exact hpc θ' hθ' ((h.at (hpc θ hθ)).1 θ' hne.symm)

end Clash

/-! ### Every run -/

section Runs

variable {m_callback_map : Callbacks L} {default_val : T} {s : State Θ L T}

/-- **Exactly when the listeners are right.** A run at whose end all calls have returned has told
    each listener the value last, in notifications that chain, if and only if no call that found
    another value made its comparison while another call was between its comparison and its
    assignment (or there is no listener). -/
theorem delivered_iff_alone {as : List (Action Θ T)}
    (he : (system Θ m_callback_map default_val).exec (initial default_val) as = some s)
    (hquiet : Quiet s) : Delivered m_callback_map default_val s ↔
      (system Θ m_callback_map default_val).Guarded (Alone m_callback_map) (initial default_val)
        as := by
  have hinv : Inv m_callback_map s :=
    LTS.exec_stable (T := system Θ m_callback_map default_val) (P := Inv m_callback_map)
      (fun s a s' h hs => inv_step h hs) inv_initial he
  have hsolo : Delivered m_callback_map default_val s ↔ Inv m_callback_map s ∧
      (m_callback_map.keys = [] ∨ Solo m_callback_map default_val s) := by
    refine ⟨fun h => ⟨hinv, .inr ⟨h.chained, .inl ⟨hquiet, h.cached⟩⟩⟩, fun ⟨_, h⟩ => ?_⟩
    rcases h with hkeys | h
    · refine ⟨fun l hl => ?_, fun l hl => ?_⟩ <;> rw [hkeys] at hl <;>
        exact absurd hl List.not_mem_nil
    · refine ⟨?_, h.chained⟩
      rcases h.told with ⟨-, htold⟩ | ⟨θ, -, hne, -⟩
      · exact htold
      · exact absurd (hquiet θ) hne
  rw [hsolo]
  refine LTS.safe_iff_guarded (T := system Θ m_callback_map default_val)
    (I := fun s => Inv m_callback_map s ∧
      (m_callback_map.keys = [] ∨ Solo m_callback_map default_val s))
    (S := fun s => Inv m_callback_map s ∧
      (m_callback_map.keys = [] ∨ Solo m_callback_map default_val s))
    (B := fun s => Inv m_callback_map s ∧ ∃ l ∈ m_callback_map.keys, Clash default_val s l)
    (fun _ h => h) ?_ ?_ ?_ ?_ ⟨inv_initial, .inr ⟨fun _ _ => .nil, .inl ⟨fun _ => rfl,
      fun _ _ => rfl⟩⟩⟩ he
  · intro s ⟨_, l, hl, hclash⟩ ⟨_, h⟩
    rcases h with hkeys | h
    · rw [hkeys] at hl
      exact absurd hl List.not_mem_nil
    · exact h.not_clash hl hclash
  · intro s a s' ⟨hinv, h⟩ ha (hs : step m_callback_map s a = some s')
    refine ⟨inv_step hinv hs, ?_⟩
    by_cases hkeys : m_callback_map.keys = []
    · exact .inl hkeys
    · exact .inr ((h.resolve_left hkeys).step hinv ha hkeys hs)
  · intro s a s' ⟨hinv, h⟩ ha (hs : step m_callback_map s a = some s')
    refine ⟨inv_step hinv hs, ?_⟩
    rcases h with hkeys | h
    · -- without a listener every step meets the condition
      refine absurd ?_ ha
      cases a with
      | compare θ v => exact .inr (.inl hkeys)
      | notify θ => trivial
      | store θ => trivial
    · exact clash_of_not_alone hinv h ha hs
  · intro s a s' ⟨hinv, l, hl, hclash⟩ (hs : step m_callback_map s a = some s')
    exact ⟨inv_step hinv hs, l, hl, clash_step hinv hclash hs⟩

/-- One listener. -/
def one : Callbacks Unit := ⟨[()], by decide⟩

/-- Two threads set 1 and 2: they notify in this order and store in the other. -/
def crossed : List (Action Bool Nat) :=
  [.compare true 1, .compare false 2, .notify true, .notify false, .store false, .store true]

/-- **The listener is left with another value**: all calls have returned, `m_val` is 1, and the
    listener has last been told 2, from 0, after having been told 1. -/
theorem setValue_misorders : ∃ s : State Bool Unit Nat,
    (system Bool one 0).exec (initial 0) crossed = some s ∧ Quiet s ∧ s.m_val = 1 ∧
      s.notes () = [(0, 1), (0, 2)] ∧ ¬ Delivered one 0 s := by
  obtain ⟨s, hs, htrue, hfalse, hval, hnotes⟩ : ∃ s : State Bool Unit Nat,
      (system Bool one 0).exec (initial 0) crossed = some s ∧ s.pc true = .idle ∧
        s.pc false = .idle ∧ s.m_val = 1 ∧ s.notes () = [(0, 1), (0, 2)] :=
    ⟨_, rfl, rfl, rfl, rfl, rfl⟩
  refine ⟨s, hs, fun θ => ?_, hval, hnotes, fun h => ?_⟩
  · cases θ with
    | true => exact htrue
    | false => exact hfalse
  · have hcached := h.cached () List.mem_cons_self
    rw [hnotes, hval] at hcached
    exact absurd hcached (by decide)

/-- The same two calls, one after the other. -/
def inOrder : List (Action Bool Nat) :=
  [.compare true 1, .notify true, .store true, .compare false 2, .notify false, .store false]

theorem delivered_iff_alone_inOrder : ∃ s : State Bool Unit Nat,
    (system Bool one 0).exec (initial 0) inOrder = some s ∧ s.m_val = 2 ∧ Delivered one 0 s := by
  obtain ⟨s, hs, htrue, hfalse, hval⟩ : ∃ s : State Bool Unit Nat,
      (system Bool one 0).exec (initial 0) inOrder = some s ∧ s.pc true = .idle ∧
        s.pc false = .idle ∧ s.m_val = 2 := ⟨_, rfl, rfl, rfl, rfl⟩
  have hquiet : Quiet s := fun θ => by
    cases θ with
    | true => exact htrue
    | false => exact hfalse
  refine ⟨s, hs, hval, (delivered_iff_alone hs hquiet).mpr ?_⟩
  -- both comparisons find all threads idle
  refine .cons (.inr (.inr fun _ => rfl)) rfl (.cons trivial rfl (.cons trivial rfl
    (.cons (.inr (.inr fun θ => ?_)) rfl (.cons trivial rfl (.cons trivial rfl trivial)))))
  cases θ <;> rfl

end Runs

end LimWebserver.Configer
