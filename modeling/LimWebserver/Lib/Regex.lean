import Mathlib.Computability.RegularExpressions

namespace LimWebserver.Lib.Regex

/-!
# Regular expressions with character classes

* `cls` — a class, as the sum of its characters;
* `mem_cls_mul`, `mem_cls_star` — one character of a class, and any number of them.
-/

variable {α : Type*}

/-- Any one of these characters. -/
def cls (chars : List α) : RegularExpression α := (chars.map RegularExpression.char).sum

variable {chars : List α} {P : RegularExpression α} {x : List α}

theorem mem_cls : x ∈ (cls chars).matches' ↔ ∃ a ∈ chars, x = [a] := by
  induction chars with
  | nil => exact iff_of_false (Set.notMem_empty x) (by simp)
  | cons a chars ih =>
    rw [cls, List.map_cons, List.sum_cons, RegularExpression.matches'_add, Language.mem_add,
      RegularExpression.matches'_char, List.exists_mem_cons_iff]
    exact or_congr Iff.rfl ih

theorem mem_cls_mul :
    x ∈ (cls chars * P).matches' ↔ ∃ a ∈ chars, ∃ y ∈ P.matches', x = a :: y := by
  rw [RegularExpression.matches'_mul, Language.mem_mul]
  constructor
  · rintro ⟨u, hu, y, hy, rfl⟩
    obtain ⟨a, ha, rfl⟩ := mem_cls.mp hu
    exact ⟨a, ha, y, hy, rfl⟩
  · rintro ⟨a, ha, y, hy, rfl⟩
    exact ⟨[a], mem_cls.mpr ⟨a, ha, rfl⟩, y, hy, rfl⟩

theorem mem_cls_star : x ∈ (cls chars).star.matches' ↔ ∀ a ∈ x, a ∈ chars := by
  rw [RegularExpression.matches'_star, Language.mem_kstar]
  constructor
  · rintro ⟨words, rfl, hwords⟩ a ha
    obtain ⟨word, hword, haw⟩ := List.mem_flatten.mp ha
    obtain ⟨b, hb, rfl⟩ := mem_cls.mp (hwords word hword)
    rwa [List.mem_singleton.mp haw]
  · intro h
    have hflatten : (x.map fun a => [a]).flatten = x := by
      rw [← List.flatMap_def, List.flatMap_singleton']
    refine ⟨x.map fun a => [a], hflatten.symm, fun word hword => ?_⟩
    obtain ⟨a, ha, rfl⟩ := List.mem_map.mp hword
    exact mem_cls.mpr ⟨a, h a ha, rfl⟩

end LimWebserver.Lib.Regex
