import Mathlib.Data.List.Sort
import Mathlib.Data.List.Nodup
import Mathlib.Data.String.Basic
import Mathlib.Order.WithBot

namespace LimWebserver.LogInitializer

/-!
# Splog — the reload listener of `LogInitializer`

When `logconfig` changes, the listener sorts the old and the new definitions by name and walks
through both lists at once, first the appenders, then the loggers.  An iterator is what is left of
its list; a dereferenced end iterator is `none`.

* `appenderLoop`, `loggerRound`, `loggerLoop` — the loops, whose result is the list of the calls of
  `LogManager`;
* `appenderLoop_eq` — the appenders: each new one exactly once;
* `Reloaded` — what the listener is to do with the loggers;
* `Handled` — the rounds in which the missing `else` does no harm;
* `Sparse` — the same said of the names: not too many new ones before an old one that is gone;
* `reloaded_iff_sparse` — exactly then the loggers are reloaded.
-/

inductive LogLevel
  | UNKNOWN | TRACE | DEBUG | INFO | WARN | ERROR | FATAL | OFF
  deriving DecidableEq, Repr

/-- `Name` is `std::string` with its order. -/
structure LogAppenderDefine (Name : Type*) where
  type : Int
  name : Name
  file : Name
  formatter : Name
  level : LogLevel
  append : Bool
  deriving DecidableEq

structure LoggerDefine (Name : Type*) where
  name : Name
  appender_refs : List Name
  level : LogLevel
  deriving DecidableEq

structure LogConfigerDefine (Name : Type*) where
  loggers : List (LoggerDefine Name)
  appenders : List (LogAppenderDefine Name)

/-- The calls of `LogManager` that the listener makes. -/
inductive Call (Name : Type*)
  | createOrUpdateAppender (lad : LogAppenderDefine Name)
  | createOrUpdateLogger (ld : LoggerDefine Name)
  | delLogger (name : Name)
  deriving DecidableEq

variable {Name : Type*} [LinearOrder Name]

/-- `std::sort` by name. -/
def sortByName {α : Type*} (name : α → Name) (l : List α) : List α :=
  l.insertionSort fun a b => name a ≤ name b

/-- The loops over the appenders, from `it1` and `it2` on. -/
def appenderLoop : List (LogAppenderDefine Name) → List (LogAppenderDefine Name) → List (Call Name)
  | it1, [] => it1.map .createOrUpdateAppender
  | [], _ => []
  | new :: it1, old :: it2 =>
    if new.name < old.name then .createOrUpdateAppender new :: appenderLoop it1 (old :: it2)
    -- an appender that is gone is left alone: `TODO`
    else if old.name < new.name then appenderLoop (new :: it1) it2
    else .createOrUpdateAppender new :: appenderLoop it1 it2

/-- One round of the first loop over the loggers, at `it3 = new :: news` and `it4 = old :: olds`,
    after which `it4` is `olds`: the calls and `it3`. -/
def loggerRound (new : LoggerDefine Name) (news : List (LoggerDefine Name))
    (old : LoggerDefine Name) : Option (List (Call Name) × List (LoggerDefine Name)) :=
  -- the first `if`, which no `else` ties to the second
  let (calls, it3) :=
    if new.name < old.name then ([.createOrUpdateLogger new], news) else ([], new :: news)
  match it3 with
  -- `*it4 < *it3` at `it3 == new_loggers.end()`
  | [] => none
  | new :: news =>
    if old.name < new.name then some (calls ++ [.delLogger old.name], new :: news)
    else some (calls ++ [.createOrUpdateLogger new], news)

/-- The loops over the loggers, from `it4` and `it3` on. -/
def loggerLoop : List (LoggerDefine Name) → List (LoggerDefine Name) → Option (List (Call Name))
  | [], it3 => some (it3.map .createOrUpdateLogger)
  | old :: it4, [] => some ((old :: it4).map fun old => .delLogger old.name)
  | old :: it4, new :: it3 =>
    (loggerRound new it3 old).bind fun (calls, it3) => (loggerLoop it4 it3).map (calls ++ ·)

/-- The listener. -/
def log_listener_func (old_val new_val : LogConfigerDefine Name) : Option (List (Call Name)) :=
  let new_appenders := sortByName LogAppenderDefine.name new_val.appenders
  let old_appenders := sortByName LogAppenderDefine.name old_val.appenders
  let new_loggers := sortByName LoggerDefine.name new_val.loggers
  let old_loggers := sortByName LoggerDefine.name old_val.loggers
  (loggerLoop old_loggers new_loggers).map (appenderLoop new_appenders old_appenders ++ ·)

/-! ### What the listener is to do -/

/-- The logger calls that are due: each new logger once, and each old one whose name is gone. -/
def due (old new : List (LoggerDefine Name)) : List (Call Name) :=
  new.map .createOrUpdateLogger ++
    (old.filter fun ld => ld.name ∉ new.map LoggerDefine.name).map fun ld => .delLogger ld.name

/-- A call that concerns a logger. -/
def Call.ofLogger : Call Name → Bool
  | .createOrUpdateAppender _ => false
  | _ => true

/-- **What the listener promises**: no end iterator is dereferenced, and the logger calls are those
    that are due, each exactly once, in some order. -/
def Reloaded (old_val new_val : LogConfigerDefine Name) : Prop :=
  ∃ calls, log_listener_func old_val new_val = some calls ∧
    (calls.filter Call.ofLogger).Perm (due old_val.loggers new_val.loggers)

/-- The rounds of the first loop over the loggers go well, from `it4` and `it3` on, of which only
    the names matter.  When the new name is smaller than the old one, there is a further new name;
    and when that one is smaller too, the old name, which the round passes over, comes later in the
    new list. -/
def Handled : List Name → List Name → Prop
  | [], _ => True
  | _ :: _, [] => True
  | old :: it4, new :: it3 =>
    if new < old then
      match it3 with
      | [] => False
      | new' :: it3' =>
        if old < new' then Handled it4 (new' :: it3')
        else if new' < old then old ∈ it3' ∧ Handled it4 it3'
        else Handled it4 it3'
    else if old < new then Handled it4 (new :: it3)
    else Handled it4 it3

/-- How many names of a list lie between two names. -/
def between (p : WithBot Name) (o : Name) (l : List Name) : Nat :=
  l.countP fun n : Name => p < n ∧ n < o

/-- **The condition**: for each old name that is gone, and each old name before it or the beginning,
    there are at most twice as many new names between the two as old ones, and one more if some new
    name comes after it. -/
def Sparse (old new : List Name) : Prop :=
  ∀ o ∈ old, o ∉ new → ∀ p ∈ (⊥ : WithBot Name) :: old.map fun n : Name => (n : WithBot Name),
    between p o new ≤ 2 * between p o old + if ∃ n ∈ new, o < n then 1 else 0

instance (old new : List Name) : Decidable (Sparse old new) :=
  inferInstanceAs (Decidable (∀ o ∈ old, o ∉ new → ∀ p ∈ _, _ ≤ _))

/-! ### The appenders -/

/-- **The appenders are reloaded**: the loop calls `createOrUpdateAppender` for each new one. -/
theorem appenderLoop_eq (it1 it2 : List (LogAppenderDefine Name)) :
    appenderLoop it1 it2 = it1.map .createOrUpdateAppender := by
  fun_induction appenderLoop it1 it2 with
  | case1 it1 => rfl
  | case2 it2 => rfl
  | case3 new it1 old it2 _ ih => rw [ih, List.map_cons]
  | case4 new it1 old it2 _ _ ih => rw [ih]
  | case5 new it1 old it2 _ _ ih => rw [ih, List.map_cons]

/-! ### The calls that are due -/

section Due

variable {old new : LoggerDefine Name} {olds news : List (LoggerDefine Name)}

theorem due_old_gone (h : old.name ∉ news.map LoggerDefine.name) :
    (due (old :: olds) news).Perm (.delLogger old.name :: due olds news) := by
  have hfilter : ((old :: olds).filter fun ld => ld.name ∉ news.map LoggerDefine.name) =
      old :: olds.filter fun ld => ld.name ∉ news.map LoggerDefine.name :=
    List.filter_cons_of_pos (decide_eq_true h)
  rw [due, hfilter, List.map_cons]
  exact List.perm_middle

theorem due_old_kept (h : old.name ∈ news.map LoggerDefine.name) :
    due (old :: olds) news = due olds news := by
  have hfilter : ((old :: olds).filter fun ld => ld.name ∉ news.map LoggerDefine.name) =
      olds.filter fun ld => ld.name ∉ news.map LoggerDefine.name :=
    List.filter_cons_of_neg (by simpa using h)
  rw [due, hfilter, due]

theorem due_new (h : ∀ ld ∈ olds, new.name ≠ ld.name) :
    due olds (new :: news) = .createOrUpdateLogger new :: due olds news := by
  have hfilter : (olds.filter fun ld => ld.name ∉ (new :: news).map LoggerDefine.name) =
      olds.filter fun ld => ld.name ∉ news.map LoggerDefine.name := by
    apply List.filter_congr
    intro ld hld
    have hne := (h ld hld).symm
    simp [hne]
  rw [due, hfilter, List.map_cons, List.cons_append, due]

/-- Other orders of the definitions give the same calls. -/
theorem due_perm {olds' news' : List (LoggerDefine Name)} (ho : olds.Perm olds')
    (hn : news.Perm news') : (due olds news).Perm (due olds' news') := by
  apply (hn.map _).append
  have hfilter : (olds.filter fun ld => ld.name ∉ news.map LoggerDefine.name) =
      olds.filter fun ld => ld.name ∉ news'.map LoggerDefine.name := by
    apply List.filter_congr
    intro ld _
    simp only [(hn.map LoggerDefine.name).mem_iff]
  rw [hfilter]
  exact (ho.filter _).map _

theorem delLogger_mem_due {name : Name} :
    .delLogger name ∈ due olds news ↔
      name ∈ olds.map LoggerDefine.name ∧ name ∉ news.map LoggerDefine.name := by
  simp only [due, List.mem_append, List.mem_map, List.mem_filter, decide_eq_true_eq]
  refine ⟨?_, fun ⟨⟨ld, hld, hname⟩, hnew⟩ => .inr ⟨ld, ⟨hld, hname ▸ hnew⟩, by rw [hname]⟩⟩
  rintro (⟨ld, -, heq⟩ | ⟨ld, ⟨hld, hnew⟩, heq⟩)
  · exact absurd heq (by simp)
  · obtain rfl := Call.delLogger.inj heq
    exact ⟨⟨ld, hld, rfl⟩, hnew⟩

end Due

/-! ### The loggers -/

section Loggers

variable {old new new' : LoggerDefine Name} {it3 it4 : List (LoggerDefine Name)}

/-- The loop makes the calls that are due. -/
def Due (it4 it3 : List (LoggerDefine Name)) : Prop :=
  ∃ calls, loggerLoop it4 it3 = some calls ∧ calls.Perm (due it4 it3)

/-- What a round calls, and what it leaves. -/
theorem loggerRound_mem {calls : List (Call Name)} {it3' : List (LoggerDefine Name)}
    (h : loggerRound new it3 old = some (calls, it3')) :
    (∀ c ∈ calls, (∃ ld ∈ new :: it3, c = .createOrUpdateLogger ld) ∨ c = .delLogger old.name) ∧
      ∀ ld ∈ it3', ld ∈ new :: it3 := by
  unfold loggerRound at h
  by_cases hlt : new.name < old.name
  · simp only [if_pos hlt] at h
    match it3 with
    | [] => exact absurd h (by simp)
    | new' :: it3 =>
      dsimp only at h
      split at h <;> obtain ⟨rfl, rfl⟩ := Prod.mk.inj (Option.some.inj h) <;> simp +contextual
  · simp only [if_neg hlt] at h
    split at h <;> obtain ⟨rfl, rfl⟩ := Prod.mk.inj (Option.some.inj h) <;> simp +contextual

/-- The loop creates or updates loggers of the new list, and deletes loggers of the old one. -/
theorem loggerLoop_mem {calls : List (Call Name)} {c : Call Name}
    (h : loggerLoop it4 it3 = some calls) (hmem : c ∈ calls) :
    (∃ ld ∈ it3, c = .createOrUpdateLogger ld) ∨ ∃ ld ∈ it4, c = .delLogger ld.name := by
  induction it4 generalizing it3 calls with
  | nil =>
    rw [loggerLoop, Option.some.injEq] at h
    rw [← h] at hmem
    obtain ⟨ld, hld, rfl⟩ := List.mem_map.mp hmem
    exact .inl ⟨ld, hld, rfl⟩
  | cons old it4 ih =>
    match it3 with
    | [] =>
      rw [loggerLoop, Option.some.injEq] at h
      rw [← h] at hmem
      obtain ⟨ld, hld, rfl⟩ := List.mem_map.mp hmem
      exact .inr ⟨ld, hld, rfl⟩
    | new :: it3 =>
      rw [loggerLoop] at h
      obtain ⟨⟨cs, it3'⟩, hround, h⟩ := Option.bind_eq_some_iff.mp h
      obtain ⟨cs', hloop, rfl⟩ := Option.map_eq_some_iff.mp h
      obtain ⟨hcs, hit3⟩ := loggerRound_mem hround
      rcases List.mem_append.mp hmem with hmem | hmem
      · rcases hcs c hmem with hnew | rfl
        · exact .inl hnew
        · exact .inr ⟨old, List.mem_cons_self, rfl⟩
      · rcases ih hloop hmem with ⟨ld, hld, rfl⟩ | ⟨ld, hld, rfl⟩
        · exact .inl ⟨ld, hit3 ld hld, rfl⟩
        · exact .inr ⟨ld, List.mem_cons_of_mem _ hld, rfl⟩

/-- A round that makes calls that are due leaves the rest to the later rounds. -/
theorem due_round {calls : List (Call Name)} {it3' : List (LoggerDefine Name)}
    (hround : loggerRound new it3 old = some (calls, it3'))
    (hdue : (due (old :: it4) (new :: it3)).Perm (calls ++ due it4 it3')) :
    Due (old :: it4) (new :: it3) ↔ Due it4 it3' := by
  have hloop : loggerLoop (old :: it4) (new :: it3) =
      (loggerLoop it4 it3').map (calls ++ ·) := by
    rw [loggerLoop, hround, Option.bind_some]
  unfold Due
  rw [hloop]
  refine ⟨fun ⟨cs, hcs, hperm⟩ => ?_, fun ⟨cs, hcs, hperm⟩ => ?_⟩
  · obtain ⟨cs', hcs', rfl⟩ := Option.map_eq_some_iff.mp hcs
    exact ⟨cs', hcs', (List.perm_append_left_iff calls).mp (hperm.trans hdue)⟩
  · exact ⟨calls ++ cs, by rw [hcs]; rfl, (hperm.append_left calls).trans hdue.symm⟩

/-- A round that passes over an old logger whose name is gone: it is never deleted. -/
theorem not_due_round {calls : List (Call Name)} {it3' : List (LoggerDefine Name)}
    (hround : loggerRound new it3 old = some (calls, it3')) (hcalls : .delLogger old.name ∉ calls)
    (hit4 : old.name ∉ it4.map LoggerDefine.name)
    (hgone : old.name ∉ (new :: it3).map LoggerDefine.name) : ¬ Due (old :: it4) (new :: it3) := by
  rintro ⟨cs, hcs, hperm⟩
  rw [loggerLoop, hround, Option.bind_some] at hcs
  obtain ⟨cs', hcs', rfl⟩ := Option.map_eq_some_iff.mp hcs
  have hmem : .delLogger old.name ∈ calls ++ cs' :=
    hperm.mem_iff.mpr (delLogger_mem_due.mpr ⟨List.mem_cons_self, hgone⟩)
  rcases List.mem_append.mp hmem with hmem | hmem
  · exact hcalls hmem
  · rcases loggerLoop_mem hcs' hmem with ⟨ld, -, heq⟩ | ⟨ld, hld, heq⟩
    · exact absurd heq (by simp)
    · exact hit4 (List.mem_map.mpr ⟨ld, hld, (Call.delLogger.inj heq).symm⟩)

/-- In sorted lists, a name before the first is nowhere. -/
theorem name_lt {name : Name} {l : List (LoggerDefine Name)} {ld : LoggerDefine Name}
    (hsorted : (ld :: l).Pairwise fun a b => a.name < b.name) (h : name ≤ ld.name) :
    name ∉ l.map LoggerDefine.name := by
  intro hmem
  obtain ⟨a, ha, rfl⟩ := List.mem_map.mp hmem
  exact absurd h (not_le_of_gt ((List.pairwise_cons.mp hsorted).1 a ha))

/-- A smaller new logger that is the last one: `++it3` reaches the end, which is then dereferenced.
    -/
theorem not_due_last (hlt : new.name < old.name) : ¬ Due (old :: it4) [new] := by
  rintro ⟨calls, hcalls, -⟩
  have hround : loggerRound new [] old = none := by simp only [loggerRound, if_pos hlt]
  rw [loggerLoop, hround, Option.bind_none] at hcalls
  exact absurd hcalls (by simp)

/-- **A round with a smaller new logger.** It is created, and then the old one is compared with the
    next new logger: a round too early, so that an old logger between the two is deleted, and one
    after both of them passed over. -/
theorem due_of_lt (hold : (old :: it4).Pairwise fun a b => a.name < b.name)
    (hnew : (new :: new' :: it3).Pairwise fun a b => a.name < b.name) (hlt : new.name < old.name) :
    Due (old :: it4) (new :: new' :: it3) ↔
      if old.name < new'.name then Due it4 (new' :: it3)
      else if new'.name < old.name then old.name ∈ it3.map LoggerDefine.name ∧ Due it4 it3
      else Due it4 it3 := by
  have holdlt := (List.pairwise_cons.mp hold).1
  have hnew' := (List.pairwise_cons.mp hnew).2
  have hnot : ∀ ld ∈ it4, new.name ≠ ld.name := fun ld hld =>
    ne_of_lt (hlt.trans (holdlt ld hld))
  by_cases hgt : old.name < new'.name
  · -- the new logger is created and the old one, which is gone, deleted
    have hround : loggerRound new (new' :: it3) old =
        some ([.createOrUpdateLogger new, .delLogger old.name], new' :: it3) := by
      simp only [loggerRound, if_pos hlt, if_pos hgt, List.singleton_append]
    have hgone : old.name ∉ (new :: new' :: it3).map LoggerDefine.name := by
      rw [List.map_cons, List.mem_cons, List.map_cons, List.mem_cons, not_or, not_or]
      exact ⟨ne_of_gt hlt, ne_of_lt hgt, name_lt hnew' hgt.le⟩
    rw [if_pos hgt]
    refine due_round hround ((due_old_gone hgone).trans ?_)
    rw [due_new hnot]
    exact List.Perm.swap _ _ _
  · -- two new loggers are created, and the old one is passed over
    have hround : loggerRound new (new' :: it3) old =
        some ([.createOrUpdateLogger new, .createOrUpdateLogger new'], it3) := by
      simp only [loggerRound, if_pos hlt, if_neg hgt, List.singleton_append]
    have hnot' : ∀ ld ∈ it4, new'.name ≠ ld.name := fun ld hld =>
      ne_of_lt (lt_of_le_of_lt (not_lt.mp hgt) (holdlt ld hld))
    have hkept : old.name ∈ (new :: new' :: it3).map LoggerDefine.name →
        (Due (old :: it4) (new :: new' :: it3) ↔ Due it4 it3) := by
      intro hmem
      apply due_round hround
      rw [due_old_kept hmem, due_new hnot, due_new hnot']
      exact List.Perm.refl _
    rw [if_neg hgt]
    by_cases hlt' : new'.name < old.name
    · -- the old one may still come later in the new list
      rw [if_pos hlt']
      by_cases hmem : old.name ∈ it3.map LoggerDefine.name
      · rw [hkept (List.mem_cons_of_mem _ (List.mem_cons_of_mem _ hmem)), and_iff_right hmem]
      · refine iff_of_false (not_due_round hround (by simp) (name_lt hold le_rfl) ?_)
          fun h => hmem h.1
        rw [List.map_cons, List.mem_cons, List.map_cons, List.mem_cons, not_or, not_or]
        exact ⟨ne_of_gt hlt, ne_of_gt hlt', hmem⟩
    · -- the second new one is the old one
      have heq : new'.name = old.name := le_antisymm (not_lt.mp hgt) (not_lt.mp hlt')
      rw [if_neg hlt']
      apply hkept
      rw [List.map_cons, List.map_cons, heq]
      exact List.mem_cons_of_mem _ List.mem_cons_self

/-- **Any other round** is right. -/
theorem due_of_not_lt (hold : (old :: it4).Pairwise fun a b => a.name < b.name)
    (hnew : (new :: it3).Pairwise fun a b => a.name < b.name) (hlt : ¬ new.name < old.name) :
    Due (old :: it4) (new :: it3) ↔
      if old.name < new.name then Due it4 (new :: it3) else Due it4 it3 := by
  by_cases hgt : old.name < new.name
  · -- the old logger is gone
    have hround : loggerRound new it3 old = some ([.delLogger old.name], new :: it3) := by
      simp only [loggerRound, if_neg hlt, if_pos hgt, List.nil_append]
    rw [if_pos hgt]
    refine due_round hround (due_old_gone ?_)
    rw [List.map_cons, List.mem_cons, not_or]
    exact ⟨ne_of_lt hgt, name_lt hnew hgt.le⟩
  · -- both lists have the logger
    have heq : new.name = old.name := le_antisymm (not_lt.mp hgt) (not_lt.mp hlt)
    have hround : loggerRound new it3 old = some ([.createOrUpdateLogger new], it3) := by
      simp only [loggerRound, if_neg hlt, if_neg hgt, List.nil_append]
    have hmem : old.name ∈ (new :: it3).map LoggerDefine.name := by
      rw [List.map_cons, heq]
      exact List.mem_cons_self
    have hnot : ∀ ld ∈ it4, new.name ≠ ld.name := fun ld hld => by
      rw [heq]
      exact ne_of_lt ((List.pairwise_cons.mp hold).1 ld hld)
    rw [if_neg hgt]
    apply due_round hround
    rw [due_old_kept hmem, due_new hnot]
    exact List.Perm.refl _

/-- **The merge.** On lists sorted by distinct names the loop makes exactly the calls that are due
    if and only if its rounds go well. -/
theorem due_iff_handled (hold : it4.Pairwise fun a b => a.name < b.name)
    (hnew : it3.Pairwise fun a b => a.name < b.name) :
    Due it4 it3 ↔ Handled (it4.map LoggerDefine.name) (it3.map LoggerDefine.name) := by
  induction it4 generalizing it3 with
  | nil =>
    refine iff_of_true ⟨_, rfl, ?_⟩ trivial
    rw [due]
    simp
  | cons old it4 ih =>
    have hold' := (List.pairwise_cons.mp hold).2
    match it3, hnew with
    | [], _ =>
      refine iff_of_true ⟨_, rfl, ?_⟩ trivial
      rw [due]
      simp
    | new :: it3, hnew =>
      have hnew' := (List.pairwise_cons.mp hnew).2
      rw [List.map_cons, List.map_cons, Handled.eq_def]
      dsimp only
      by_cases hlt : new.name < old.name
      · rw [if_pos hlt]
        match it3, hnew' with
        | [], _ => exact iff_of_false (not_due_last hlt) not_false
        | new' :: it3, hnew' =>
          rw [due_of_lt hold hnew hlt, ih hold' hnew', ih hold' (List.pairwise_cons.mp hnew').2]
          rfl
      · rw [if_neg hlt, due_of_not_lt hold hnew hlt, ih hold' hnew, ih hold' hnew', List.map_cons]

end Loggers

/-! ### The condition, name by name -/

section Sparse

variable {o q : Name} {p : WithBot Name} {old new rest l : List Name}

/-- No name of the list lies between the two. -/
theorem between_eq_zero (h : ∀ n ∈ l, p < (n : WithBot Name) → o ≤ n) : between p o l = 0 := by
  rw [between, List.countP_eq_zero]
  intro n hn
  simp only [decide_eq_true_eq, not_and, not_lt]
  exact h n hn

theorem between_le_bot (l : List Name) : between p o l ≤ between ⊥ o l := by
  apply List.countP_mono_left
  intro n _ h
  simp only [decide_eq_true_eq] at h ⊢
  exact ⟨WithBot.bot_lt_coe n, h.2⟩

/-- Above a name that is before all of the list, the whole list counts. -/
theorem between_eq_bot (h : ∀ n ∈ l, q < n) : between (q : WithBot Name) o l = between ⊥ o l := by
  rw [between, between]
  apply List.countP_congr
  intro n hn
  simp [h n hn]

/-- The first names of a list do not count from a bound on that is not before them. -/
theorem between_append_of_le {taken : List Name} (h : ∀ n ∈ taken, (n : WithBot Name) ≤ p) :
    between p o (taken ++ rest) = between p o rest := by
  have hzero : between p o taken = 0 := by
    apply between_eq_zero
    intro n hn hp
    exact absurd hp (not_lt_of_ge (h n hn))
  rw [between, List.countP_append]
  exact (congrArg (· + _) hzero).trans (Nat.zero_add _)

/-- All first names of a list count when they are before the name. -/
theorem between_bot_append {taken : List Name} (h : ∀ n ∈ taken, n < o) :
    between ⊥ o (taken ++ rest) = taken.length + between ⊥ o rest := by
  have hall : between ⊥ o taken = taken.length := by
    rw [between, List.countP_eq_length]
    intro n hn
    exact decide_eq_true ⟨WithBot.bot_lt_coe n, h n hn⟩
  rw [between, List.countP_append]
  exact congrArg (· + _) hall

/-- The condition does not depend on the orders of the lists. -/
theorem sparse_perm {old' new' : List Name} (hold : old.Perm old') (hnew : new.Perm new') :
    Sparse old new ↔ Sparse old' new' := by
  have hlower : ∀ p, p ∈ (⊥ : WithBot Name) :: (old.map fun n : Name => (n : WithBot Name)) ↔
      p ∈ (⊥ : WithBot Name) :: old'.map fun n : Name => (n : WithBot Name) := by
    intro p
    exact ((hold.map _).cons ⊥).mem_iff
  have hcount : ∀ p o, between p o old = between p o old' ∧ between p o new = between p o new' :=
    fun p o => ⟨hold.countP_eq _, hnew.countP_eq _⟩
  unfold Sparse
  simp only [hold.mem_iff, hnew.mem_iff, hlower, hcount]

/-- **One round.** The names that it takes from the new list are not greater than the old name, two
    at most, and unless there are two, what is left is greater. -/
theorem sparse_round (taken : List Name) (hold : (o :: old).Pairwise (· < ·))
    (htaken : ∀ n ∈ taken, n ≤ o) (hlen : taken.length ≤ 2)
    (hrest : taken.length = 2 ∨ ∀ n ∈ rest, o < n) :
    Sparse (o :: old) (taken ++ rest) ↔
      (o ∈ taken ++ rest ∨
        between ⊥ o (taken ++ rest) ≤ if ∃ n ∈ taken ++ rest, o < n then 1 else 0) ∧
      Sparse old rest := by
  obtain ⟨hlt, -⟩ := List.pairwise_cons.mp hold
  have hself : ∀ p, between p o (o :: old) = 0 := by
    intro p
    apply between_eq_zero
    intro n hn _
    rcases List.mem_cons.mp hn with rfl | hn
    · exact le_rfl
    · exact (hlt n hn).le
  -- for a later old name what the round has taken is not there and not larger
  have hmem : ∀ o' ∈ old, o' ∈ taken ++ rest ↔ o' ∈ rest := by
    intro o' ho'
    rw [List.mem_append, or_iff_right]
    intro ht
    exact absurd (hlt o' ho') (not_lt_of_ge (htaken o' ht))
  have hlarger : ∀ o' ∈ old, (∃ n ∈ taken ++ rest, o' < n) ↔ ∃ n ∈ rest, o' < n := by
    intro o' ho'
    constructor
    · rintro ⟨n, hn, hlt'⟩
      rcases List.mem_append.mp hn with hn | hn
      · exact absurd ((hlt o' ho').trans hlt') (not_lt_of_ge (htaken n hn))
      · exact ⟨n, hn, hlt'⟩
    · rintro ⟨n, hn, hlt'⟩
      exact ⟨n, List.mem_append_right _ hn, hlt'⟩
  -- from the beginning on it counts, and from `o` or a later old name on it does not
  have hbot : ∀ o' ∈ old, between ⊥ o' (taken ++ rest) = taken.length + between ⊥ o' rest ∧
      between ⊥ o' (o :: old) = 1 + between ⊥ o' old := by
    intro o' ho'
    refine ⟨between_bot_append fun n hn => lt_of_le_of_lt (htaken n hn) (hlt o' ho'), ?_⟩
    have hone : ∀ n ∈ [o], n < o' := by
      intro n hn
      exact List.mem_singleton.mp hn ▸ hlt o' ho'
    exact between_bot_append hone
  have habove : ∀ q, o ≤ q → ∀ o',
      between (q : WithBot Name) o' (taken ++ rest) = between (q : WithBot Name) o' rest ∧
        between (q : WithBot Name) o' (o :: old) = between (q : WithBot Name) o' old := by
    intro q hq o'
    refine ⟨between_append_of_le fun n hn => WithBot.coe_le_coe.mpr ((htaken n hn).trans hq), ?_⟩
    have hone : ∀ n ∈ [o], (n : WithBot Name) ≤ q := by
      intro n hn
      exact List.mem_singleton.mp hn ▸ WithBot.coe_le_coe.mpr hq
    exact between_append_of_le hone
  constructor
  · intro h
    constructor
    · by_cases ho : o ∈ taken ++ rest
      · exact .inl ho
      · right
        have h := h o List.mem_cons_self ho ⊥ List.mem_cons_self
        rwa [hself, Nat.mul_zero, Nat.zero_add] at h
    · intro o' ho' hgone p hp
      have h := h o' (List.mem_cons_of_mem o ho') (mt (hmem o' ho').mp hgone)
      simp only [hlarger o' ho'] at h
      rcases List.mem_cons.mp hp with rfl | hp
      · rcases hrest with htwo | hrest
        · -- two new names for one old name
          have h := h ⊥ List.mem_cons_self
          rw [(hbot o' ho').1, (hbot o' ho').2, htwo] at h
          omega
        · -- what is left begins after `o`
          have h := h o (List.mem_cons_of_mem _ List.mem_cons_self)
          rwa [(habove o le_rfl o').1, (habove o le_rfl o').2, between_eq_bot hlt,
            between_eq_bot hrest] at h
      · obtain ⟨q, hq, rfl⟩ := List.mem_map.mp hp
        have h := h q (List.mem_cons_of_mem _ (List.mem_cons_of_mem _ (List.mem_map_of_mem hq)))
        rwa [(habove q (hlt q hq).le o').1, (habove q (hlt q hq).le o').2] at h
  · rintro ⟨hhead, h⟩ o' ho' hgone p hp
    rcases List.mem_cons.mp ho' with rfl | ho'
    · have hhead := hhead.resolve_left hgone
      exact ((between_le_bot _).trans hhead).trans (Nat.le_add_left _ _)
    · have h := h o' ho' (mt (hmem o' ho').mpr hgone)
      simp only [hlarger o' ho']
      have hX := h ⊥ List.mem_cons_self
      rcases List.mem_cons.mp hp with rfl | hp
      · rw [(hbot o' ho').1, (hbot o' ho').2]
        omega
      · obtain ⟨q, hq, rfl⟩ := List.mem_map.mp hp
        rcases List.mem_cons.mp hq with rfl | hq
        · rw [(habove q le_rfl o').1, (habove q le_rfl o').2, between_eq_bot hlt]
          exact (between_le_bot rest).trans hX
        · rw [(habove q (hlt q hq).le o').1, (habove q (hlt q hq).le o').2]
          exact h q (List.mem_cons_of_mem _ (List.mem_map_of_mem hq))

/-- **The rounds go well under the condition**, when the lists are sorted. -/
theorem handled_iff_sparse (hold : old.Pairwise (· < ·)) (hnew : new.Pairwise (· < ·)) :
    Handled old new ↔ Sparse old new := by
  fun_induction Handled old new with
  | case1 new => exact iff_of_true trivial fun o ho => absurd ho List.not_mem_nil
  | case2 o old => exact iff_of_true trivial fun o' _ _ p _ => Nat.zero_le _
  | case3 o old n hlt =>
    -- the only new name is before `o`, and none is after it
    have hround : Sparse (o :: old) ([n] ++ []) ↔ _ :=
      sparse_round [n] hold (by simpa using hlt.le) (by simp) (.inr (by simp))
    have hone : between ⊥ o ([n] ++ []) = 1 := between_bot_append (by simpa using hlt)
    have hlarger : ¬ ∃ m ∈ [n] ++ [], o < m := by simpa using hlt.le
    rw [hone, if_neg hlarger] at hround
    apply iff_of_false not_false
    intro h
    rcases (hround.mp h).1 with hmem | hle
    · exact hlt.ne (List.mem_singleton.mp hmem).symm
    · exact absurd hle (by decide)
  | case4 o old n hlt n' new hgt ih =>
    -- one new name is before `o`, and `n'` is after it
    have hnew' := (List.pairwise_cons.mp hnew).2
    have hrest : ∀ m ∈ n' :: new, o < m := by
      intro m hm
      rcases List.mem_cons.mp hm with rfl | hm
      · exact hgt
      · exact hgt.trans ((List.pairwise_cons.mp hnew').1 m hm)
    have hone : between ⊥ o ([n] ++ n' :: new) = 1 := by
      rw [between_bot_append (by simpa using hlt), between_eq_zero fun m hm _ => (hrest m hm).le]
      rfl
    have hlarger : ∃ m ∈ [n] ++ n' :: new, o < m := ⟨n', by simp, hgt⟩
    rw [ih (List.pairwise_cons.mp hold).2 hnew']
    refine Iff.trans ?_ (sparse_round [n] hold (by simpa using hlt.le) (by simp) (.inr hrest)).symm
    rw [hone, if_pos hlarger]
    exact (and_iff_right (.inr le_rfl)).symm
  | case5 o old n hlt n' new hgt hlt' ih =>
    -- two new names are before `o`
    have hnew' := (List.pairwise_cons.mp (List.pairwise_cons.mp hnew).2).2
    have htwo : between ⊥ o ([n, n'] ++ new) = 2 + between ⊥ o new :=
      between_bot_append (by simpa using ⟨hlt, hlt'⟩)
    have hmem : o ∈ [n, n'] ++ new ↔ o ∈ new := by simp [hlt.ne', hlt'.ne']
    rw [ih (List.pairwise_cons.mp hold).2 hnew']
    refine Iff.trans ?_ (sparse_round [n, n'] hold (by simpa using ⟨hlt.le, hlt'.le⟩) (by simp)
      (.inl rfl)).symm
    rw [htwo, hmem, or_iff_left]
    split <;> omega
  | case6 o old n hlt n' new hgt hlt' ih =>
    -- the second new name is `o`
    obtain rfl : n' = o := le_antisymm (not_lt.mp hgt) (not_lt.mp hlt')
    rw [ih (List.pairwise_cons.mp hold).2
      (List.pairwise_cons.mp (List.pairwise_cons.mp hnew).2).2]
    refine Iff.trans ?_ (sparse_round [n, n'] hold (by simpa using hlt.le) (by simp)
      (.inl rfl)).symm
    exact (and_iff_right (.inl (by simp))).symm
  | case7 o old n new hlt hgt ih =>
    -- all new names are after `o`
    have hrest : ∀ m ∈ n :: new, o < m := by
      intro m hm
      rcases List.mem_cons.mp hm with rfl | hm
      · exact hgt
      · exact hgt.trans ((List.pairwise_cons.mp hnew).1 m hm)
    rw [ih (List.pairwise_cons.mp hold).2 hnew]
    refine Iff.trans ?_ (sparse_round [] hold (by simp) (by simp) (.inr hrest)).symm
    rw [List.nil_append, between_eq_zero fun m hm _ => (hrest m hm).le]
    exact (and_iff_right (.inr (Nat.zero_le _))).symm
  | case8 o old n new hlt hgt ih =>
    -- the first new name is `o`
    obtain rfl : n = o := le_antisymm (not_lt.mp hgt) (not_lt.mp hlt)
    obtain ⟨hn, hnew'⟩ := List.pairwise_cons.mp hnew
    rw [ih (List.pairwise_cons.mp hold).2 hnew']
    refine Iff.trans ?_ (sparse_round [n] hold (by simp) (by simp) (.inr hn)).symm
    exact (and_iff_right (.inl (by simp))).symm

end Sparse
/-! ### The listener -/

section Listener

/-- Sorting definitions with distinct names. -/
theorem pairwise_sortByName {α : Type*} {name : α → Name} {l : List α} (h : (l.map name).Nodup) :
    (sortByName name l).Pairwise fun a b => name a < name b := by
  have hle : (sortByName name l).Pairwise fun a b => name a ≤ name b := by
    have : Std.Total fun a b : α => name a ≤ name b := ⟨fun a b => le_total _ _⟩
    have : IsTrans α fun a b => name a ≤ name b := ⟨fun _ _ _ => le_trans⟩
    exact List.pairwise_insertionSort _ l
  have hnodup : ((sortByName name l).map name).Nodup :=
    ((List.perm_insertionSort _ l).map name).nodup_iff.mpr h
  have hne : (sortByName name l).Pairwise fun a b => name a ≠ name b := List.pairwise_map.mp hnodup
  exact (hle.and hne).imp fun hab => lt_of_le_of_ne hab.1 hab.2

/-- What is promised is what the loop over the loggers makes of the sorted definitions. -/
theorem reloaded_iff_due {old_val new_val : LogConfigerDefine Name} :
    Reloaded old_val new_val ↔ Due (sortByName LoggerDefine.name old_val.loggers)
      (sortByName LoggerDefine.name new_val.loggers) := by
  have hperm : (due (sortByName LoggerDefine.name old_val.loggers)
      (sortByName LoggerDefine.name new_val.loggers)).Perm
        (due old_val.loggers new_val.loggers) :=
    due_perm (List.perm_insertionSort _ _) (List.perm_insertionSort _ _)
  -- the appender calls, which come first, are no logger calls, and the others are
  have hfilter : ∀ calls, loggerLoop (sortByName LoggerDefine.name old_val.loggers)
      (sortByName LoggerDefine.name new_val.loggers) = some calls →
        (appenderLoop (sortByName LogAppenderDefine.name new_val.appenders)
          (sortByName LogAppenderDefine.name old_val.appenders) ++ calls).filter Call.ofLogger =
            calls := by
    intro calls hcalls
    have hself : calls.filter Call.ofLogger = calls := List.filter_eq_self.mpr fun c hc => by
      rcases loggerLoop_mem hcalls hc with ⟨ld, -, rfl⟩ | ⟨ld, -, rfl⟩ <;> rfl
    have hnone : (appenderLoop (sortByName LogAppenderDefine.name new_val.appenders)
        (sortByName LogAppenderDefine.name old_val.appenders)).filter Call.ofLogger = [] := by
      rw [appenderLoop_eq, List.filter_map, List.map_eq_nil_iff, List.filter_eq_nil_iff]
      exact fun _ _ => by rintro ⟨⟩
    rw [List.filter_append, hnone, hself, List.nil_append]
  unfold Reloaded Due log_listener_func
  dsimp only
  refine ⟨fun ⟨calls, hcalls, hdue⟩ => ?_, fun ⟨calls, hcalls, hdue⟩ => ?_⟩
  · obtain ⟨cs, hcs, rfl⟩ := Option.map_eq_some_iff.mp hcalls
    rw [hfilter cs hcs] at hdue
    exact ⟨cs, hcs, hdue.trans hperm.symm⟩
  · refine ⟨_, by rw [hcalls]; rfl, ?_⟩
    rw [hfilter calls hcalls]
    exact hdue.trans hperm

/-- **The reload of the loggers.** For definitions with distinct names the listener creates or
    updates each new logger and deletes each old one whose name is gone, once each and no other, and
    dereferences no end iterator, if and only if there are not too many new names before an old one
    that is gone. -/
theorem reloaded_iff_sparse {old_val new_val : LogConfigerDefine Name}
    (hold : (old_val.loggers.map LoggerDefine.name).Nodup)
    (hnew : (new_val.loggers.map LoggerDefine.name).Nodup) :
    Reloaded old_val new_val ↔
      Sparse (old_val.loggers.map LoggerDefine.name)
        (new_val.loggers.map LoggerDefine.name) := by
  have hsparse := handled_iff_sparse (List.pairwise_map.mpr (pairwise_sortByName hold))
    (List.pairwise_map.mpr (pairwise_sortByName hnew))
  have hsort : ∀ l : List (LoggerDefine Name),
      ((sortByName LoggerDefine.name l).map LoggerDefine.name).Perm (l.map LoggerDefine.name) :=
    fun l => (List.perm_insertionSort _ l).map _
  rw [reloaded_iff_due, due_iff_handled (pairwise_sortByName hold) (pairwise_sortByName hnew),
    hsparse, sparse_perm (hsort old_val.loggers) (hsort new_val.loggers)]

/-- A logger of this name, with the default level. -/
def named (name : Name) : LoggerDefine Name := ⟨name, [], .UNKNOWN⟩

/-- **The end is dereferenced** when the only new logger is smaller than the only old one. -/
theorem listener_derefs_end :
    (["b"] : List String).Nodup ∧ (["a"] : List String).Nodup ∧
      log_listener_func ⟨[named "b"], []⟩ ⟨[named "a"], []⟩ = none ∧
      ¬ Reloaded ⟨[named "b"], []⟩ ⟨[named "a"], []⟩ := by
  have hnone : log_listener_func ⟨[named "b"], []⟩ ⟨[named "a"], []⟩ = none := by decide
  refine ⟨by decide, by decide, hnone, ?_⟩
  rintro ⟨calls, hcalls, -⟩
  exact absurd (hnone.symm.trans hcalls) (by simp)

/-- With two smaller new loggers the old one is not deleted. -/
example : loggerLoop [named "c"] [named "a", named "b"] =
    some [.createOrUpdateLogger (named "a"), .createOrUpdateLogger (named "b")] := by
  decide

theorem reloaded_iff_sparse_oneNew :
    Reloaded ⟨[named "a", named "c"], []⟩ ⟨[named "c", named "b"], []⟩ :=
  (reloaded_iff_sparse (by decide) (by decide)).mpr (by decide)

end Listener

end LimWebserver.LogInitializer
