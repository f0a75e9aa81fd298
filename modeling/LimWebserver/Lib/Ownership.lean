import Mathlib.Data.Finset.Basic
import Mathlib.Logic.Equiv.Basic

namespace LimWebserver.Lib

/-!
# Resources and their owners

A finite set of resources is held, and each of some owners names at most one resource as its own.

* `Sound` — what is owned is held, and by one owner only;
* `Leaked` — a held resource that nobody owns;
* `Owns` — sound, and nothing is leaked;
* one lemma for each of the moves: an owner acquires a resource that is not held, an owner releases
  its resource, two owners swap theirs, an owner that has a resource takes another one, with which
  the first one is leaked;
* `Kept` — what the first two moves keep, as they keep `Sound`, `Owns` and every leak.
-/

variable {α ι : Type*}

/-- What is owned is held, and by one owner only. -/
structure Sound (held : Finset α) (owner : ι → Option α) : Prop where
  mem : ∀ i a, owner i = some a → a ∈ held
  unique : ∀ i j a, owner i = some a → owner j = some a → i = j

/-- A held resource that nobody owns. -/
def Leaked (held : Finset α) (owner : ι → Option α) (a : α) : Prop :=
  a ∈ held ∧ ∀ i, owner i ≠ some a

/-- What is held is what is owned, by one owner each. -/
structure Owns (held : Finset α) (owner : ι → Option α) : Prop extends Sound held owner where
  owned : ∀ a ∈ held, ∃ i, owner i = some a

section

variable {held : Finset α} {owner : ι → Option α} {i j : ι} {a b : α}

theorem Leaked.not_owns (h : Leaked held owner a) : ¬ Owns held owner := by
  intro hall
  obtain ⟨i, hi⟩ := hall.owned a h.1
  exact h.2 i hi

/-- A resource that is not held is not owned. -/
theorem Sound.ne_of_not_mem (h : Sound held owner) (ha : a ∉ held) (i : ι) : owner i ≠ some a :=
  fun hi => ha (h.mem i a hi)

variable [DecidableEq ι]

/-- Who owns a resource after `i` has been given another one. -/
theorem update_eq_some {r : Option α} (h : Function.update owner i r j = some a) :
    (j = i ∧ r = some a) ∨ (j ≠ i ∧ owner j = some a) := by
  by_cases hj : j = i
  · subst hj
    rw [Function.update_self] at h
    exact .inl ⟨rfl, h⟩
  · rw [Function.update_of_ne hj] at h
    exact .inr ⟨hj, h⟩

variable [DecidableEq α]

/-! ### Acquiring -/

theorem Sound.acquire (h : Sound held owner) (ha : a ∉ held) (i : ι) :
    Sound (insert a held) (Function.update owner i (some a)) := by
  refine ⟨fun j b hj => ?_, fun j k b hj hk => ?_⟩
  · rcases update_eq_some hj with ⟨-, hb⟩ | ⟨-, hb⟩
    · rw [← Option.some.inj hb]
      exact Finset.mem_insert_self a held
    · exact Finset.mem_insert_of_mem (h.mem j b hb)
  · rcases update_eq_some hj with ⟨rfl, hb⟩ | ⟨-, hb⟩ <;>
      rcases update_eq_some hk with ⟨rfl, hc⟩ | ⟨-, hc⟩
    · rfl
    · exact absurd (Option.some.inj hb ▸ hc) (h.ne_of_not_mem ha k)
    · exact absurd (Option.some.inj hc ▸ hb) (h.ne_of_not_mem ha j)
    · exact h.unique j k b hb hc

theorem Owns.acquire (h : Owns held owner) (ha : a ∉ held) (hi : owner i = none) :
    Owns (insert a held) (Function.update owner i (some a)) := by
  refine ⟨h.toSound.acquire ha i, fun b hb => ?_⟩
  rcases Finset.mem_insert.mp hb with rfl | hb
  · exact ⟨i, Function.update_self _ _ _⟩
  · obtain ⟨j, hj⟩ := h.owned b hb
    refine ⟨j, ?_⟩
    rw [Function.update_of_ne, hj]
    rintro rfl
    exact absurd (hi.symm.trans hj) (by simp)

theorem Leaked.acquire (h : Leaked held owner b) (ha : a ∉ held) (i : ι) :
    Leaked (insert a held) (Function.update owner i (some a)) b := by
  refine ⟨Finset.mem_insert_of_mem h.1, fun j hj => ?_⟩
  rcases update_eq_some hj with ⟨-, hb⟩ | ⟨-, hb⟩
  · exact ha (Option.some.inj hb ▸ h.1)
  · exact h.2 j hb

/-- **A leak.** An owner that takes another resource loses the one it has. -/
theorem Sound.leak (h : Sound held owner) (ha : a ∉ held) (hi : owner i = some b) :
    Leaked (insert a held) (Function.update owner i (some a)) b := by
  refine ⟨Finset.mem_insert_of_mem (h.mem i b hi), fun j hj => ?_⟩
  rcases update_eq_some hj with ⟨-, hb⟩ | ⟨hne, hb⟩
  · exact ha (Option.some.inj hb ▸ h.mem i b hi)
  · exact hne (h.unique j i b hb hi)

omit [DecidableEq ι] in
/-- A resource that is held for nobody. -/
theorem Sound.hold (h : Sound held owner) (ha : a ∉ held) :
    Sound (insert a held) owner ∧ Leaked (insert a held) owner a :=
  ⟨⟨fun i b hb => Finset.mem_insert_of_mem (h.mem i b hb), h.unique⟩,
    Finset.mem_insert_self a held, h.ne_of_not_mem ha⟩

/-! ### Releasing -/

theorem Sound.release (h : Sound held owner) (hi : owner i = some a) :
    Sound (held.erase a) (Function.update owner i none) := by
  refine ⟨fun j b hj => ?_, fun j k b hj hk => ?_⟩
  · rcases update_eq_some hj with ⟨-, hb⟩ | ⟨hne, hb⟩
    · exact absurd hb (by simp)
    · refine Finset.mem_erase.mpr ⟨?_, h.mem j b hb⟩
      rintro rfl
      exact hne (h.unique j i b hb hi)
  · rcases update_eq_some hj with ⟨-, hb⟩ | ⟨-, hb⟩
    · exact absurd hb (by simp)
    · rcases update_eq_some hk with ⟨-, hc⟩ | ⟨-, hc⟩
      · exact absurd hc (by simp)
      · exact h.unique j k b hb hc

theorem Owns.release (h : Owns held owner) (hi : owner i = some a) :
    Owns (held.erase a) (Function.update owner i none) := by
  refine ⟨h.toSound.release hi, fun b hb => ?_⟩
  obtain ⟨hne, hb⟩ := Finset.mem_erase.mp hb
  obtain ⟨j, hj⟩ := h.owned b hb
  refine ⟨j, ?_⟩
  rw [Function.update_of_ne, hj]
  rintro rfl
  exact hne (Option.some.inj (hj.symm.trans hi))

theorem Leaked.release (h : Leaked held owner b) (hi : owner i = some a) :
    Leaked (held.erase a) (Function.update owner i none) b := by
  refine ⟨Finset.mem_erase.mpr ⟨?_, h.1⟩, fun j hj => ?_⟩
  · rintro rfl
    exact h.2 i hi
  · rcases update_eq_some hj with ⟨-, hb⟩ | ⟨-, hb⟩
    · exact absurd hb (by simp)
    · exact h.2 j hb

/-! ### Swapping -/

omit [DecidableEq α] in
/-- Two owners exchange what they have. -/
theorem Owns.swap (h : Owns held owner) (i j : ι) : Owns held (owner ∘ Equiv.swap i j) := by
  refine ⟨⟨fun k a hk => h.mem _ a hk, fun k l a hk hl => ?_⟩, fun a ha => ?_⟩
  · exact (Equiv.swap i j).injective (h.unique _ _ a hk hl)
  · obtain ⟨k, hk⟩ := h.owned a ha
    refine ⟨Equiv.swap i j k, ?_⟩
    rw [Function.comp_apply, Equiv.swap_apply_self]
    exact hk

/-! ### What both moves keep -/

/-- A property of what is held and who owns it that survives acquiring and releasing. -/
structure Kept (P : Finset α → (ι → Option α) → Prop) : Prop where
  acquire : ∀ {held owner i a}, P held owner → a ∉ held → owner i = none →
    P (insert a held) (Function.update owner i (some a))
  release : ∀ {held owner i a}, P held owner → owner i = some a →
    P (held.erase a) (Function.update owner i none)

theorem Sound.kept : Kept fun held (owner : ι → Option α) => Sound held owner :=
  ⟨fun h ha _ => h.acquire ha _, fun h hi => h.release hi⟩

theorem Owns.kept : Kept fun held (owner : ι → Option α) => Owns held owner :=
  ⟨fun h ha hi => h.acquire ha hi, fun h hi => h.release hi⟩

theorem Leaked.kept (b : α) : Kept fun held (owner : ι → Option α) => Leaked held owner b :=
  ⟨fun h ha _ => h.acquire ha _, fun h hi => h.release hi⟩

end

end LimWebserver.Lib
