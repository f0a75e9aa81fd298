import Mathlib.Data.List.Basic

namespace LimWebserver.Lib.Pieces

/-!
# Assignments between separators

A text is cut at every separator; a piece with the symbol `eq` in it assigns what stands behind the
first one to what stands before it.

* `Run`, `Run.joined` — an assignment with the pieces directly before it that are none, and the text
  from the first of these up to the symbol;
* `assignment`, `runs` — the key and the value of a piece, and the runs of several;
* `runs_none`, `runs_first` — a scan for the symbol and then for a separator finds one run after the
  other.
-/

section

variable {α : Type}

/-- An assignment, behind pieces that are none. -/
structure Run (α : Type) where
  before : List (List α)
  key : List α
  value : List α
  deriving DecidableEq, Repr

/-- Pieces with their separators. -/
def unpieces (sep : α) (ps : List (List α)) : List α := ps.flatMap fun p => p ++ [sep]

/-- The text from the first piece of a run up to its symbol. -/
def Run.joined (sep : α) (r : Run α) : List α := unpieces sep r.before ++ r.key

variable {sep : α} {r : Run α}

theorem joined_of_nil (sep : α) (h : r.before = []) : r.joined sep = r.key := by
  rw [Run.joined, h]
  rfl

/-- A run with other pieces has a separator in its text. -/
theorem mem_joined (h : r.before ≠ []) : sep ∈ r.joined sep := by
  obtain ⟨p, ps, hbefore⟩ := List.exists_cons_of_ne_nil h
  rw [Run.joined, hbefore, unpieces, List.flatMap_cons]
  simp

end

variable {α : Type} [DecidableEq α]

/-- The key and the value of a piece, if it has the symbol in it. -/
def assignment (eq : α) (p : List α) : Option (List α × List α) :=
  if eq ∈ p then some (p.takeWhile (· ≠ eq), (p.dropWhile (· ≠ eq)).tail) else none

/-- The runs of a list of pieces; `before` stands before the first one. -/
def runs (eq : α) : List (List α) → List (List α) → List (Run α)
  | _, [] => []
  | before, p :: ps =>
    match assignment eq p with
    | none => runs eq (before ++ [p]) ps
    | some a => ⟨before, a.1, a.2⟩ :: runs eq [] ps

variable {eq sep : α} {p a v text : List α} {before ps : List (List α)} {r : Run α}

/-- The first occurrence of a symbol. -/
theorem span_first (h : eq ∉ a) (v : List α) :
    (a ++ eq :: v).takeWhile (· ≠ eq) = a ∧ (a ++ eq :: v).dropWhile (· ≠ eq) = eq :: v := by
  have hpos : ∀ x ∈ a, decide (x ≠ eq) = true := by
    intro x hx
    simpa using fun heq : x = eq => h (heq ▸ hx)
  constructor
  · rw [List.takeWhile_append_of_pos hpos, List.takeWhile_cons_of_neg (by simp), List.append_nil]
  · rw [List.dropWhile_append_of_pos hpos, List.dropWhile_cons_of_neg (by simp)]

theorem assignment_append (h : eq ∉ a) : assignment eq (a ++ eq :: v) = some (a, v) := by
  obtain ⟨htake, hdrop⟩ := span_first h v
  have hmem : eq ∈ a ++ eq :: v := List.mem_append_right a List.mem_cons_self
  rw [assignment, if_pos hmem, htake, hdrop, List.tail_cons]

/-- The assignments of the pieces are those of their runs. -/
theorem filterMap_assignment (before ps : List (List α)) :
    ps.filterMap (assignment eq) = (runs eq before ps).map fun r => (r.key, r.value) := by
  induction ps generalizing before with
  | nil => rfl
  | cons p ps ih =>
    rw [runs]
    cases hp : assignment eq p with
    | none => rw [List.filterMap_cons_none hp, ih]
    | some a => rw [List.filterMap_cons_some hp, ih [], List.map_cons]

/-- Pieces that are all assignments are a run each. -/
theorem runs_of_forall (h : ∀ p ∈ ps, eq ∈ p) : runs eq [] ps =
    ps.map fun p => ⟨[], p.takeWhile (· ≠ eq), (p.dropWhile (· ≠ eq)).tail⟩ := by
  induction ps with
  | nil => rfl
  | cons p ps ih =>
    have hp : assignment eq p = some _ := if_pos (h p List.mem_cons_self)
    rw [runs, hp, List.map_cons, ← ih fun p hp => h p (List.mem_cons_of_mem _ hp)]

/-- A piece has no separator in it. -/
theorem not_mem_of_mem_splitOn (h : p ∈ text.splitOn sep) : sep ∉ p := by
  induction text generalizing p with
  | nil =>
    obtain rfl := List.mem_singleton.mp h
    exact List.not_mem_nil
  | cons x text ih =>
    rw [List.splitOn_cons_eq_if_modifyHead] at h
    split_ifs at h with hx
    · rcases List.mem_cons.mp h with rfl | h
      · exact List.not_mem_nil
      · exact ih h
    · obtain ⟨q, qs, hqs⟩ := List.exists_cons_of_ne_nil (List.splitOn_ne_nil sep text)
      rw [hqs, List.modifyHead_cons] at h
      rw [hqs] at ih
      rcases List.mem_cons.mp h with rfl | h
      · refine mt List.mem_cons.mp (not_or.mpr ⟨?_, ih List.mem_cons_self⟩)
        exact fun heq => hx (by rw [heq, beq_self_eq_true])
      · exact ih (List.mem_cons_of_mem q h)

/-- Nor has the key of a run. -/
theorem not_mem_key (h : ∀ p ∈ ps, sep ∉ p) (hr : r ∈ runs eq before ps) : sep ∉ r.key := by
  induction ps generalizing before with
  | nil => exact absurd hr List.not_mem_nil
  | cons p ps ih =>
    replace ih := fun before => @ih before fun p hp => h p (List.mem_cons_of_mem _ hp)
    rw [runs] at hr
    cases hp : assignment eq p with
    | none =>
      rw [hp] at hr
      exact ih _ hr
    | some a =>
      rw [hp] at hr
      rcases List.mem_cons.mp hr with rfl | hr
      · unfold assignment at hp
        split_ifs at hp
        rw [← Option.some.inj hp]
        exact fun hmem => h p List.mem_cons_self ((List.takeWhile_sublist _).subset hmem)
      · exact ih _ hr

/-! ### One scan -/

/-- No symbol, no assignment. -/
theorem runs_none (h : eq ∉ text) : runs eq before (text.splitOn sep) = [] := by
  induction hlen : text.length using Nat.strongRecOn generalizing text before with
  | _ n ih =>
    by_cases hsep : sep ∈ text
    · obtain ⟨x, rest, rfl, hx⟩ := List.eq_append_cons_of_mem hsep
      simp only [List.mem_append, List.mem_cons, not_or] at h
      obtain ⟨hx', -, hrest⟩ := h
      have hnone : assignment eq x = none := if_neg hx'
      rw [List.splitOn_append_cons_self_of_not_mem hx, runs, hnone]
      refine ih rest.length ?_ hrest rfl
      rw [← hlen, List.length_append, List.length_cons]
      omega
    · have hnone : assignment eq text = none := if_neg h
      rw [List.splitOn_eq_singleton hsep, runs, hnone]
      rfl

/-- **The first run**: from the beginning to the first symbol, and on to the next separator. -/
theorem runs_first (hne : eq ≠ sep) (ha : eq ∉ a) (hv : sep ∉ v) (before : List (List α)) :
    ∃ r : Run α, r.joined sep = unpieces sep before ++ a ∧ r.value = v ∧
      ∀ ps, runs eq before ((a ++ eq :: v).splitOn sep ++ ps) = r :: runs eq [] ps := by
  induction hlen : a.length using Nat.strongRecOn generalizing a before with
  | _ n ih =>
    by_cases hsep : sep ∈ a
    · -- the text up to the separator is a piece without an assignment
      obtain ⟨x, rest, rfl, hx⟩ := List.eq_append_cons_of_mem hsep
      simp only [List.mem_append, List.mem_cons, not_or] at ha
      obtain ⟨hx', -, hrest⟩ := ha
      have hnone : assignment eq x = none := if_neg hx'
      have hshort : rest.length < n := by
        rw [← hlen, List.length_append, List.length_cons]
        omega
      obtain ⟨r, hjoined, hvalue, hruns⟩ := ih rest.length hshort hrest (before ++ [x]) rfl
      refine ⟨r, ?_, hvalue, fun ps => ?_⟩
      · rw [hjoined]
        simp [unpieces]
      · rw [List.append_assoc, List.cons_append, List.splitOn_append_cons_self_of_not_mem hx,
          List.cons_append, runs, hnone]
        exact hruns ps
    · have hwhole : sep ∉ a ++ eq :: v := by
        simp only [List.mem_append, List.mem_cons, not_or]
        exact ⟨hsep, Ne.symm hne, hv⟩
      refine ⟨⟨before, a, v⟩, rfl, rfl, fun ps => ?_⟩
      rw [List.splitOn_eq_singleton hwhole, List.singleton_append, runs, assignment_append ha]

end LimWebserver.Lib.Pieces
