import Mathlib.Data.List.TakeWhile

namespace LimWebserver.Lib.Lines

/-!
# Texts in lines

A line ends with the two symbols `cr` and `lf`, and the head of a message with an empty line.

* `unlines` — lines with their ends;
* `lines`, `further`, `allLines` — the lines of a text, those behind its first one, and those of
  several texts;
* `head` — the lines up to the first empty one, and what is behind that;
* `head_append`, `head_append_empty` — a text at the beginning of a head, without and with an empty
  line in it;
* `head_unlines`, `head_unlines_empty` — the same for several texts;
* `head_more` — what comes behind a head changes nothing in it;
* `splitOn_ended` — lines that end with one symbol are read back.
-/

section

variable {α : Type} (cr lf : α)

/-- Lines with their ends. -/
def unlines (ls : List (List α)) : List α := ls.flatMap fun l => l ++ [cr, lf]

variable {cr lf}

@[simp] theorem unlines_nil : unlines cr lf [] = [] := rfl

@[simp] theorem unlines_cons (l : List α) (ls : List (List α)) :
    unlines cr lf (l :: ls) = l ++ cr :: lf :: unlines cr lf ls := by
  simp [unlines]

@[simp] theorem unlines_append (ls ls' : List (List α)) :
    unlines cr lf (ls ++ ls') = unlines cr lf ls ++ unlines cr lf ls' := by
  simp [unlines]

theorem takeWhile_of_not_mem {ls : List (List α)} (h : [] ∉ ls) :
    ls.takeWhile (· ≠ []) = ls :=
  List.takeWhile_eq_self_iff.mpr fun l hl => by
    simpa using fun hnil : l = [] => h (hnil ▸ hl)

/-- What is behind an empty line is not taken. -/
theorem takeWhile_append_of_mem {ls : List (List α)} (h : [] ∈ ls)
    (ls' : List (List α)) :
    (ls ++ ls').takeWhile (· ≠ []) = ls.takeWhile (· ≠ []) := by
  induction ls with
  | nil => exact absurd h List.not_mem_nil
  | cons l ls ih =>
    rw [List.cons_append]
    by_cases hl : l = []
    · rw [List.takeWhile_cons_of_neg (by simp [hl]), List.takeWhile_cons_of_neg (by simp [hl])]
    · rw [List.takeWhile_cons_of_pos (by simp [hl]), List.takeWhile_cons_of_pos (by simp [hl]),
        ih ((List.mem_cons.mp h).resolve_left (Ne.symm hl))]

end

variable {α : Type} [DecidableEq α] (cr lf : α)

/-- The lines of a text, of whose first one `line` has been read already. -/
def lines : List α → List α → List (List α)
  | line, [] => [line]
  | line, [a] => [line ++ [a]]
  | line, a :: b :: text =>
    if a = cr ∧ b = lf then line :: lines [] text else lines (line ++ [a]) (b :: text)

/-- The lines behind the first one. -/
def further (text : List α) : List (List α) := (lines cr lf [] text).tail

/-- The lines of several texts. -/
def allLines (ls : List (List α)) : List (List α) := ls.flatMap (lines cr lf [])

/-- The lines of a text up to the first empty one, and what is behind that. -/
def head : List α → List α → Option (List (List α) × List α)
  | _, [] => none
  | _, [_] => none
  | line, a :: b :: text =>
    if a = cr ∧ b = lf then
      if line = [] then some ([], text)
      else (head [] text).map fun h => (line :: h.1, h.2)
    else head (line ++ [a]) (b :: text)

variable {cr lf} {a : α} {line text rest body : List α}
  {ls : List (List α)}

theorem lines_cons (ha : a ≠ cr) :
    lines cr lf line (a :: text) = lines cr lf (line ++ [a]) text := by
  cases text with
  | nil => rfl
  | cons b text => rw [lines, if_neg fun h => ha h.1]

theorem lines_append (h : cr ∉ text) :
    lines cr lf line (text ++ rest) = lines cr lf (line ++ text) rest := by
  induction text generalizing line with
  | nil => rw [List.nil_append, List.append_nil]
  | cons a text ih =>
    obtain ⟨ha, htext⟩ := not_or.mp (mt List.mem_cons.mpr h)
    rw [List.cons_append, lines_cons (Ne.symm ha), ih htext, List.append_assoc,
      List.singleton_append]

theorem lines_eq (h : cr ∉ text) : lines cr lf line text = [line ++ text] := by
  rw [← List.append_nil text, lines_append h, List.append_nil]
  rfl

/-- What has been read already belongs to the first line only. -/
theorem lines_line (line text : List α) :
    ∃ first, lines cr lf line text = (line ++ first) :: further cr lf text := by
  have key : ∀ line line', ∃ first, lines cr lf (line ++ line') text =
      (line ++ first) :: (lines cr lf line' text).tail := by
    intro line line'
    fun_induction lines cr lf line' text with
    | case1 line' => exact ⟨line', rfl⟩
    | case2 line' a => exact ⟨line' ++ [a], by rw [lines, List.append_assoc]; rfl⟩
    | case3 line' a b text hend => exact ⟨line', by rw [lines, if_pos hend, List.tail_cons]⟩
    | case4 line' a b text hend ih =>
      obtain ⟨first, hfirst⟩ := ih
      exact ⟨first, by rw [lines, if_neg hend, List.append_assoc, hfirst]⟩
  obtain ⟨first, hfirst⟩ := key line []
  rw [List.append_nil] at hfirst
  exact ⟨first, hfirst⟩

theorem further_eq_nil (h : cr ∉ text) : further cr lf text = [] := by
  rw [further, lines_eq h, List.tail_cons]

/-! ### Heads -/

/-- The empty line. -/
@[simp] theorem head_end : head cr lf [] (cr :: lf :: text) = some ([], text) := by
  rw [head, if_pos ⟨rfl, rfl⟩, if_pos rfl]

theorem head_line (hline : line ≠ []) : head cr lf line (cr :: lf :: text) =
    (head cr lf [] text).map fun h => (line :: h.1, h.2) := by
  rw [head, if_pos ⟨rfl, rfl⟩, if_neg hline]

/-- **A text at the beginning of a head.** -/
theorem head_append (hne : cr ≠ lf) (h : [] ∉ lines cr lf line text) :
    head cr lf line (text ++ cr :: lf :: rest) =
      (head cr lf [] rest).map fun h => (lines cr lf line text ++ h.1, h.2) := by
  fun_induction lines cr lf line text with
  | case1 line =>
    rw [List.nil_append]
    exact head_line (Ne.symm (mt List.mem_singleton.mpr h))
  | case2 line a =>
    -- `a` may be `cr`, but what follows it is not `lf`
    rw [List.singleton_append, head, if_neg fun h => hne h.2]
    exact head_line (Ne.symm (mt List.mem_singleton.mpr h))
  | case3 line a b text hend ih =>
    obtain ⟨hline, htext⟩ := not_or.mp (mt List.mem_cons.mpr h)
    rw [List.cons_append, List.cons_append, head, if_pos hend, if_neg (Ne.symm hline), ih htext,
      Option.map_map]
    rfl
  | case4 line a b text hend ih =>
    rw [List.cons_append, List.cons_append, head, if_neg hend]
    exact ih h

/-- A text with an empty line in it: the head ends there, and what follows is behind it. -/
theorem head_append_empty (rest : List α) (h : [] ∈ lines cr lf line text) :
    ∃ body, head cr lf line (text ++ cr :: lf :: rest) =
      some ((lines cr lf line text).takeWhile (· ≠ []), body ++ rest) := by
  fun_induction lines cr lf line text with
  | case1 line =>
    obtain rfl := List.mem_singleton.mp h
    exact ⟨[], head_end⟩
  | case2 line a =>
    rw [List.mem_singleton] at h
    exact absurd h (by simp)
  | case3 line a b text hend ih =>
    rw [List.cons_append, List.cons_append, head, if_pos hend]
    by_cases hline : line = []
    · rw [if_pos hline, hline, List.takeWhile_cons_of_neg (by simp)]
      exact ⟨text ++ [cr, lf], by simp⟩
    · have htext := (List.mem_cons.mp h).resolve_left (Ne.symm hline)
      obtain ⟨body, hhead⟩ := ih htext
      rw [if_neg hline, hhead, List.takeWhile_cons_of_pos (by simp [hline])]
      exact ⟨body, rfl⟩
  | case4 line a b text hend ih =>
    rw [List.cons_append, List.cons_append, head, if_neg hend]
    exact ih h

/-- **A head ends** where it ends, whatever follows. -/
theorem head_more (more : List α) (h : head cr lf line text = some (ls, rest)) :
    head cr lf line (text ++ more) = some (ls, rest ++ more) := by
  fun_induction head cr lf line text generalizing ls with
  | case1 | case2 => cases h
  | case3 a b text hend =>
    cases h
    rw [List.cons_append, List.cons_append, head, if_pos hend, if_pos rfl]
  | case4 line a b text hend hline ih =>
    obtain ⟨⟨ls', rest'⟩, hhead, h⟩ := Option.map_eq_some_iff.mp h
    cases h
    rw [List.cons_append, List.cons_append, head, if_pos hend, if_neg hline, ih hhead]
    rfl
  | case5 line a b text hend ih =>
    rw [List.cons_append, List.cons_append, head, if_neg hend]
    exact ih h

/-! ### Several texts -/

theorem allLines_cons (l : List α) (ls : List (List α)) :
    allLines cr lf (l :: ls) = lines cr lf [] l ++ allLines cr lf ls :=
  List.flatMap_cons

theorem allLines_append (ls ls' : List (List α)) :
    allLines cr lf (ls ++ ls') = allLines cr lf ls ++ allLines cr lf ls' :=
  List.flatMap_append

/-- Texts of one line each. -/
theorem allLines_eq (h : ∀ l ∈ ls, cr ∉ l) : allLines cr lf ls = ls := by
  induction ls with
  | nil => rfl
  | cons l ls ih =>
    rw [allLines_cons, lines_eq (h l List.mem_cons_self),
      ih fun l' hl' => h l' (List.mem_cons_of_mem l hl')]
    rfl

/-- **Texts without an empty line** are read back. -/
theorem head_unlines (hne : cr ≠ lf) (h : [] ∉ allLines cr lf ls) :
    head cr lf [] (unlines cr lf ls ++ rest) =
      (head cr lf [] rest).map fun h => (allLines cr lf ls ++ h.1, h.2) := by
  induction ls with
  | nil => cases hhead : head cr lf [] rest <;> simp [allLines, hhead]
  | cons l ls ih =>
    rw [allLines_cons] at h ⊢
    obtain ⟨hl, hls⟩ := not_or.mp (mt List.mem_append.mpr h)
    rw [unlines_cons, List.append_assoc, List.cons_append, List.cons_append, head_append hne hl,
      ih hls, Option.map_map]
    simp only [Function.comp_def, List.append_assoc]

/-- **Texts with an empty line** are read back up to it. -/
theorem head_unlines_empty (hne : cr ≠ lf) (rest : List α) (h : [] ∈ allLines cr lf ls) :
    ∃ body, head cr lf [] (unlines cr lf ls ++ rest) =
      some ((allLines cr lf ls).takeWhile (· ≠ []), body ++ rest) := by
  induction ls with
  | nil => exact absurd h List.not_mem_nil
  | cons l ls ih =>
    rw [allLines_cons] at h ⊢
    rw [unlines_cons, List.append_assoc, List.cons_append, List.cons_append]
    by_cases hl : [] ∈ lines cr lf [] l
    · obtain ⟨body, hhead⟩ := head_append_empty (unlines cr lf ls ++ rest) hl
      have htake : (lines cr lf [] l ++ allLines cr lf ls).takeWhile (· ≠ []) =
          (lines cr lf [] l).takeWhile (· ≠ []) := takeWhile_append_of_mem hl _
      exact ⟨body ++ unlines cr lf ls, by rw [hhead, htake, List.append_assoc]⟩
    · obtain ⟨body, hhead⟩ := ih ((List.mem_append.mp h).resolve_left hl)
      have htake : (lines cr lf [] l ++ allLines cr lf ls).takeWhile (· ≠ []) =
          lines cr lf [] l ++ (allLines cr lf ls).takeWhile (· ≠ []) := by
        apply List.takeWhile_append_of_pos
        intro l' hl'
        simpa using fun h0 : l' = [] => hl (h0 ▸ hl')
      exact ⟨body, by rw [head_append hne hl, hhead, htake]; rfl⟩

/-! ### Lines with one symbol at their ends -/

/-- **Lines are read back** by cutting at the symbol they end with. -/
theorem splitOn_ended (h : ∀ l ∈ ls, a ∉ l) (rest : List α) :
    (ls.flatMap (· ++ [a]) ++ rest).splitOn a = ls ++ rest.splitOn a := by
  induction ls with
  | nil => rfl
  | cons l ls ih =>
    obtain ⟨hl, hls⟩ := List.forall_mem_cons.mp h
    rw [List.flatMap_cons, List.append_assoc, List.append_assoc, List.singleton_append,
      List.splitOn_append_cons_self_of_not_mem hl, ih hls, List.cons_append]

end LimWebserver.Lib.Lines
