import Mathlib.Data.List.Basic
import Mathlib.Logic.Function.Basic

namespace LimWebserver.Lib

/-!
# Transition systems with guarded runs

A labelled transition system here is a set of initial states together with an executable
partial step function; the label of a step carries every choice the environment makes, so
that one label leads to at most one state.

* `LTS.exec` runs a list of labels and is what a concrete trace is evaluated with;
* `LTS.ReachableUnder G` collects the states that some run ends in *all of whose steps meet
  the guard* `G`; `LTS.Reachable` is the unguarded case;
* `LTS.ReachableUnder.invariant` is the induction principle every safety proof goes through:
  an invariant that holds initially and survives each guarded step holds in every such state;
* `LTS.ReachableUnder.simulates` relates the states of one system to the reachable states of
  another one, whose invariants then hold of them;
* `LTS.safe_iff_guarded` turns a guard that is also necessary into an equivalence over runs;
* `LTS.along_iff_guarded` does so where the harm need not last, of all the states of a run.
-/

/-- A transition system: initial states and one partial step function. -/
structure LTS (σ α : Type*) where
  /-- The states a run may start in. -/
  init : σ → Prop
  /-- `step s a` is the state after the step labelled `a`, or `none` when it is not enabled. -/
  step : σ → α → Option σ

namespace LTS

variable {σ α : Type*} (T : LTS σ α)

/-- Perform the steps labelled `as`, in order. -/
def exec : σ → List α → Option σ
  | s, [] => some s
  | s, a :: as => (T.step s a).bind fun s' => exec s' as

/-- Every step that `exec s as` performs meets the guard `G`. -/
def Guarded (G : σ → α → Prop) : σ → List α → Prop
  | _, [] => True
  | s, a :: as => G s a ∧ ∀ s', T.step s a = some s' → Guarded G s' as

/-- Every state that `exec s as` passes through has `P`, the first and the last one too. -/
def Along (P : σ → Prop) : σ → List α → Prop
  | s, [] => P s
  | s, a :: as => P s ∧ ∀ s', T.step s a = some s' → Along P s' as

/-- `s` ends some run from an initial state all of whose steps meet the guard `G`. -/
inductive ReachableUnder (G : σ → α → Prop) : σ → Prop
  | init {s : σ} : T.init s → ReachableUnder G s
  | step {s s' : σ} {a : α} :
      ReachableUnder G s → G s a → T.step s a = some s' → ReachableUnder G s'

/-- `s` ends some run from an initial state. -/
abbrev Reachable : σ → Prop := T.ReachableUnder fun _ _ => True

variable {T} {G : σ → α → Prop}

/-- **Invariant rule.** What holds initially and survives every guarded step holds in every
    state that a guarded run reaches. -/
theorem ReachableUnder.invariant {I : σ → Prop} (hinit : ∀ s, T.init s → I s)
    (hstep : ∀ s a s', I s → G s a → T.step s a = some s' → I s')
    {s : σ} (h : T.ReachableUnder G s) : I s := by
  induction h with
  | init h0 => exact hinit _ h0
  | step _ hg hs ih => exact hstep _ _ _ ih hg hs

/-- Weakening the guard keeps every reachable state. -/
theorem ReachableUnder.mono {H : σ → α → Prop} (hGH : ∀ s a, G s a → H s a) {s : σ}
    (h : T.ReachableUnder G s) : T.ReachableUnder H s := by
  induction h with
  | init h0 => exact .init h0
  | step _ hg hs ih => exact .step ih (hGH _ _ hg) hs

/-- Extending a guarded run by a guarded execution. -/
theorem ReachableUnder.exec {s s' : σ} {as : List α} (h : T.ReachableUnder G s)
    (hg : T.Guarded G s as) (he : T.exec s as = some s') : T.ReachableUnder G s' := by
  induction as generalizing s with
  | nil => cases he; exact h
  | cons a as ih =>
    obtain ⟨hga, hgs⟩ := hg
    cases hs : T.step s a with
    | none => simp [LTS.exec, hs] at he
    | some t =>
      rw [LTS.exec, hs, Option.bind_some] at he
      exact ih (.step h hga hs) (hgs t hs) he

/-- A guarded execution begins with a step that meets the guard. -/
theorem Guarded.cons {s s' : σ} {a : α} {as : List α} (hg : G s a) (hs : T.step s a = some s')
    (h : T.Guarded G s' as) : T.Guarded G s (a :: as) :=
  ⟨hg, fun t ht => by rw [hs, Option.some.injEq] at ht; exact ht ▸ h⟩

/-- A guard that can be evaluated can be evaluated along a trace. -/
instance Guarded.decidable [∀ s a, Decidable (G s a)] :
    ∀ (s : σ) (as : List α), Decidable (T.Guarded G s as)
  | _, [] => .isTrue trivial
  | s, a :: as =>
    match hs : T.step s a with
    | none =>
      decidable_of_iff (G s a) ⟨fun h => ⟨h, fun t ht => by rw [hs] at ht; cases ht⟩, And.left⟩
    | some t =>
      have := Guarded.decidable t as
      decidable_of_iff (G s a ∧ T.Guarded G t as)
        ⟨fun h => .cons h.1 hs h.2, fun h => ⟨h.1, h.2 t hs⟩⟩

/-- Without a guard there is nothing to meet. -/
theorem guarded_true (s : σ) (as : List α) : T.Guarded (fun _ _ => True) s as := by
  induction as generalizing s with
  | nil => trivial
  | cons a as ih => exact ⟨trivial, fun s' _ => ih s'⟩

/-- A guard that asks for the label only is met if all the labels of the run meet it. -/
theorem guarded_label {g : α → Prop} {s s' : σ} {as : List α} (he : T.exec s as = some s') :
    T.Guarded (fun _ a => g a) s as ↔ ∀ a ∈ as, g a := by
  induction as generalizing s with
  | nil => exact iff_of_true trivial nofun
  | cons a as ih =>
    obtain ⟨t, hs, ht⟩ := Option.bind_eq_some_iff.mp he
    rw [List.forall_mem_cons]
    constructor
    · intro h
      exact ⟨h.1, (ih ht).mp (h.2 t hs)⟩
    · intro h
      exact .cons h.1 hs ((ih ht).mpr h.2)

/-- A trace that `exec` evaluates from an initial state reaches its last state. -/
theorem reachable_of_exec {s s' : σ} {as : List α} (h0 : T.init s)
    (he : T.exec s as = some s') : T.Reachable s' :=
  ReachableUnder.exec (.init h0) (guarded_true s as) he

/-- What every step keeps, a run keeps. -/
theorem exec_stable {P : σ → Prop} (hP : ∀ s a s', P s → T.step s a = some s' → P s')
    {s s' : σ} {as : List α} (h : P s) (he : T.exec s as = some s') : P s' := by
  induction as generalizing s with
  | nil => cases he; exact h
  | cons a as ih =>
    obtain ⟨t, hs, ht⟩ := Option.bind_eq_some_iff.mp he
    exact ih (hP s a t h hs) ht

/-- **Simulation rule.** Related initial states, and steps that are matched by at most one step,
    relate every state of a guarded run to a reachable one. -/
theorem ReachableUnder.simulates {ρ β : Type*} {U : LTS ρ β} {R : σ → ρ → Prop}
    (hinit : ∀ s, T.init s → ∃ u, U.init u ∧ R s u)
    (hstep : ∀ s u a s', U.Reachable u → R s u → G s a → T.step s a = some s' →
      R s' u ∨ ∃ b u', U.step u b = some u' ∧ R s' u')
    {s : σ} (h : T.ReachableUnder G s) : ∃ u, U.Reachable u ∧ R s u := by
  induction h with
  | init h0 =>
    obtain ⟨u, hu, hR⟩ := hinit _ h0
    exact ⟨u, .init hu, hR⟩
  | step _ hg hs ih =>
    obtain ⟨u, hu, hR⟩ := ih
    rcases hstep _ u _ _ hu hR hg hs with hR' | ⟨b, u', hb, hR'⟩
    · exact ⟨u, hu, hR'⟩
    · exact ⟨u', .step hu trivial hb, hR'⟩

/-- **Exactness of a guard.** When the guard is what keeps the invariant, and a step that breaks it
    does lasting harm, a run is safe at its end exactly when all its steps meet the guard. -/
theorem safe_iff_guarded {I S B : σ → Prop} (hsafe : ∀ s, I s → S s)
    (hbad : ∀ s, B s → ¬ S s)
    (hstep : ∀ s a s', I s → G s a → T.step s a = some s' → I s')
    (hbreak : ∀ s a s', I s → ¬ G s a → T.step s a = some s' → B s')
    (hlast : ∀ s a s', B s → T.step s a = some s' → B s')
    {s s' : σ} {as : List α} (hI : I s) (he : T.exec s as = some s') :
    S s' ↔ T.Guarded G s as := by
  induction as generalizing s with
  | nil =>
    cases he
    exact iff_of_true (hsafe _ hI) trivial
  | cons a as ih =>
    obtain ⟨t, hs, ht⟩ := Option.bind_eq_some_iff.mp he
    by_cases hg : G s a
    · have hiff := ih (hstep s a t hI hg hs) ht
      refine hiff.trans ⟨fun h => ⟨hg, fun u hu => ?_⟩, fun h => h.2 t hs⟩
      rw [hs, Option.some.injEq] at hu
      exact hu ▸ h
    · -- the harm of this step stays to the end
      have hB := exec_stable hlast (hbreak s a t hI hg hs) ht
      exact iff_of_false (hbad s' hB) fun h => hg h.1

/-- What holds along a run holds where it begins. -/
theorem Along.head {P : σ → Prop} {s : σ} {as : List α} (h : T.Along P s as) : P s := by
  cases as with
  | nil => exact h
  | cons a as => exact h.1

/-- **Exactness of a guard along a run.** When the guard is what keeps the invariant, and a step
    that breaks it leads to a state without `P`, all the states of a run have `P` exactly when all
    its steps meet the guard. -/
theorem along_iff_guarded {I P : σ → Prop} (hP : ∀ s, I s → P s)
    (hstep : ∀ s a s', I s → G s a → T.step s a = some s' → I s')
    (hbreak : ∀ s a, I s → ¬ G s a → ∃ s', T.step s a = some s' ∧ ¬ P s')
    {s : σ} {as : List α} (hI : I s) : T.Along P s as ↔ T.Guarded G s as := by
  induction as generalizing s with
  | nil => exact iff_of_true (hP s hI) trivial
  | cons a as ih =>
    constructor
    · intro h
      by_cases hg : G s a
      · exact ⟨hg, fun s' hs => (ih (hstep s a s' hI hg hs)).mp (h.2 s' hs)⟩
      · obtain ⟨s', hs, hbad⟩ := hbreak s a hI hg
        exact absurd (h.2 s' hs).head hbad
    · intro h
      exact ⟨hP s hI, fun s' hs => (ih (hstep s a s' hI h.1 hs)).mpr (h.2 s' hs)⟩

end LTS

/-! ### Program points of many threads -/

section
variable {Θ P : Type*} [DecidableEq Θ] {f : Θ → P} {θ θ' : Θ} {p q : P}

/-- Moving one thread to `p` brings no thread to any other program point. -/
theorem eq_of_update_eq (hpq : p ≠ q) (h : Function.update f θ p θ' = q) : f θ' = q := by
  rcases eq_or_ne θ' θ with rfl | hne
  · rw [Function.update_self] at h; exact absurd h hpq
  · rwa [Function.update_of_ne hne] at h

/-- Moving one thread keeps some thread in `Q`, unless this thread was the one and leaves. -/
theorem exists_update {Q : P → Prop} (h : ∃ θ', Q (f θ')) (hθ : Q (f θ) → Q p) :
    ∃ θ', Q (Function.update f θ p θ') := by
  obtain ⟨θ', hθ'⟩ := h
  rcases eq_or_ne θ' θ with rfl | hne
  · exact ⟨θ', by rw [Function.update_self]; exact hθ hθ'⟩
  · exact ⟨θ', by rw [Function.update_of_ne hne]; exact hθ'⟩

/-- Moving one thread leaves every thread that stood elsewhere where it was. -/
theorem exists_update_eq (hne : f θ ≠ q) (h : ∃ θ', f θ' = q) :
    ∃ θ', Function.update f θ p θ' = q :=
  exists_update (Q := fun r => r = q) h fun hθ => absurd hθ hne

end

end LimWebserver.Lib
