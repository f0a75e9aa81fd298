import LimWebserver.Splog.LogManagerInv
import Mathlib.Data.List.ReduceOption

namespace LimWebserver.LogManager

open LimWebserver.Lib LogInitializer

/-!
# Splog — `Logger::log`

A logger without appenders passes its messages on to the root logger, which does so too.

* `doAppend`, `doAppends`, `log` — the functions; the result is who has written the line;
* `doAppends_eq`, `log_own`, `log_root`, `log_low` — the three ways of a message;
* `log_root_none` — the root without appenders; `log_mem` — nobody else gets the line;
* `Logged`, `Gone` — what is promised; `Heard` — the condition of a message;
* `log_without_end` — a message without end; `logged_iff` — all messages and all deletions.
-/

namespace State

variable (s : State)

/-- `appender->doAppend(message)`: the appender, if its sink gets the line.  Below `m_level` the
    sink gets the empty text. -/
def doAppend (level : LogLevel) (a : Nat) : List Nat :=
  if (s.appender a).m_started ∧ (s.appender a).m_level ≤ level then [a] else []

/-- The loop over `m_appenders`; none: a null pointer is dereferenced. -/
def doAppends (level : LogLevel) : List (Option Nat) → Option (List Nat)
  | [] => some []
  | p :: ps => p.bind fun a => (doAppends level ps).map (s.doAppend level a ++ ·)

/-- `log(message)`; none: a null pointer is dereferenced, or the call has not returned at this depth
    of the recursion. -/
def log : Nat → Nat → LogLevel → Option (List Nat)
  | 0, _, _ => none
  | depth + 1, l, level =>
    if (s.logger l).m_level ≤ level then
      if (s.logger l).m_appenders ≠ [] then s.doAppends level (s.logger l).m_appenders
      else log depth s.m_root level
    else some []

/-- The appenders of a list that take a message of the level. -/
def takers (level : LogLevel) (ps : List (Option Nat)) : List Nat :=
  ps.reduceOption.filter fun a => (s.appender a).m_level ≤ level

end State

variable {s : State}

/-- **The loop** gives the line to those that take it. -/
theorem doAppends_eq (level : LogLevel) {ps : List (Option Nat)}
    (hps : ∀ p ∈ ps, Live s p) : s.doAppends level ps = some (s.takers level ps) := by
  induction ps with
  | nil => rfl
  | cons p ps ih =>
    obtain ⟨⟨a, ha, rfl, hstarted⟩, hrest⟩ := List.forall_mem_cons.mp hps
    rw [State.doAppends, Option.bind_some, ih hrest, Option.map_some, State.doAppend, State.takers,
      State.takers, List.reduceOption_cons_of_some, List.filter_cons]
    simp only [hstarted, true_and, decide_eq_true_eq]
    split_ifs <;> rfl

theorem mem_takers {level : LogLevel} {ps : List (Option Nat)} {a : Nat} :
    a ∈ s.takers level ps ↔ some a ∈ ps ∧ (s.appender a).m_level ≤ level := by
  rw [State.takers, List.mem_filter, List.reduceOption_mem_iff, decide_eq_true_iff]

section
variable {l : Nat} {level : LogLevel}

/-- A message below the logger's level. -/
theorem log_low (hlow : ¬ (s.logger l).m_level ≤ level) (depth : Nat) :
    s.log (depth + 1) l level = some [] := by
  rw [State.log, if_neg hlow]

/-- A logger with appenders. -/
theorem log_own (h : Inv s) (hlevel : (s.logger l).m_level ≤ level)
    (hown : (s.logger l).m_appenders ≠ []) (depth : Nat) :
    s.log (depth + 1) l level = some (s.takers level (s.logger l).m_appenders) := by
  rw [State.log, if_pos hlevel, if_pos hown, doAppends_eq level (h.live l)]

/-- A logger without appenders. -/
theorem log_root (hlevel : (s.logger l).m_level ≤ level) (hnil : (s.logger l).m_appenders = [])
    (depth : Nat) : s.log (depth + 1) l level = s.log depth s.m_root level := by
  rw [State.log, if_pos hlevel, if_neg (not_not_intro hnil)]

/-- **The root without appenders** does not return. -/
theorem log_root_none (hlevel : (s.logger s.m_root).m_level ≤ level)
    (hnil : (s.logger s.m_root).m_appenders = []) (depth : Nat) :
    s.log depth s.m_root level = none := by
  induction depth with
  | zero => rfl
  | succ depth ih => rw [log_root hlevel hnil, ih]

/-- Nobody gets the line but appenders of the logger and of the root. -/
theorem log_mem (h : Inv s) {depth : Nat} {out : List Nat} (hlog : s.log depth l level = some out)
    {a : Nat} (ha : a ∈ out) :
    some a ∈ (s.logger l).m_appenders ∨ some a ∈ (s.logger s.m_root).m_appenders := by
  induction depth generalizing l with
  | zero => cases hlog
  | succ depth ih =>
    by_cases hlevel : (s.logger l).m_level ≤ level
    · by_cases hnil : (s.logger l).m_appenders = []
      · rw [log_root hlevel hnil] at hlog
        exact .inr ((ih hlog).elim id id)
      · rw [log_own h hlevel hnil] at hlog
        cases hlog
        exact .inl (mem_takers.mp ha).1
    · rw [log_low hlevel] at hlog
      cases hlog
      cases ha

end

/-! ### What is promised -/

/-- The appender is to get the message: it is the logger's, or the root's if the logger has none,
    and no level is in the way. -/
def Due (s : State) (l : Nat) (level : LogLevel) (a : Nat) : Prop :=
  (s.logger l).m_level ≤ level ∧
    (some a ∈ (s.logger l).m_appenders ∨
      (s.logger l).m_appenders = [] ∧ (s.logger s.m_root).m_level ≤ level ∧
        some a ∈ (s.logger s.m_root).m_appenders) ∧
    (s.appender a).m_level ≤ level

/-- **What is promised of a message**: the call returns, and those appenders that are to get the
    message get it exactly once, and no others. -/
def Logged (s : State) (l : Nat) (level : LogLevel) : Prop :=
  ∃ depth out, s.log depth l level = some out ∧
    (∀ a, Due s l level a → out.count a = 1) ∧ ∀ a, ¬ Due s l level a → a ∉ out

/-- **What is promised of `delAppender`**: no logger delivers to an appender of the name. -/
def Gone (s : State) (name : String) : Prop :=
  ∃ s', s.delAppender name = some s' ∧ ∀ l < s'.nextLogger, ∀ level depth out,
    s'.log depth l level = some out → ∀ a ∈ out, (s'.appender a).m_name ≠ name

/-- **The condition of a message** that passes the logger's level: the list that is used holds no
    appender that takes it twice; and if it is the root's, and passes the root's level, it is not
    empty. -/
def Heard (s : State) (l : Nat) (level : LogLevel) : Prop :=
  (s.logger l).m_level ≤ level →
    ((s.logger l).m_appenders ≠ [] → (s.takers level (s.logger l).m_appenders).Nodup) ∧
    ((s.logger l).m_appenders = [] → (s.logger s.m_root).m_level ≤ level →
      (s.logger s.m_root).m_appenders ≠ [] ∧
        (s.takers level (s.logger s.m_root).m_appenders).Nodup)

/-- A call that can only return so: once each means without duplicates. -/
theorem logged_iff_nodup {l : Nat} {level : LogLevel} {ps : List (Option Nat)}
    (hlog : ∀ depth, s.log (depth + 2) l level = some (s.takers level ps))
    (hone : ∀ out, s.log 1 l level = some out → out = s.takers level ps)
    (hdue : ∀ a, Due s l level a ↔ a ∈ s.takers level ps) :
    Logged s l level ↔ (s.takers level ps).Nodup := by
  constructor
  · rintro ⟨depth, out, hout, honce, -⟩
    obtain rfl : out = s.takers level ps := by
      match depth with
      | 0 => cases hout
      | 1 => exact hone out hout
      | depth + 2 => exact Option.some.inj (hout.symm.trans (hlog depth))
    exact List.nodup_iff_count_eq_one.mpr fun a ha => honce a ((hdue a).mpr ha)
  · intro hnodup
    refine ⟨2, _, hlog 0, fun a ha => ?_, fun a ha hmem => ha ((hdue a).mpr hmem)⟩
    exact List.nodup_iff_count_eq_one.mp hnodup a ((hdue a).mp ha)

/-- A message of a logger without appenders. -/
theorem logged_iff_root (h : Inv s) {l : Nat} {level : LogLevel}
    (hlevel : (s.logger l).m_level ≤ level) (hnil : (s.logger l).m_appenders = []) :
    Logged s l level ↔ ((s.logger s.m_root).m_level ≤ level →
      (s.logger s.m_root).m_appenders ≠ [] ∧
        (s.takers level (s.logger s.m_root).m_appenders).Nodup) := by
  have hroot := log_root hlevel hnil
  have hone : ∀ ps out, s.log 1 l level = some out → out = s.takers level ps := by
    intro ps out hout
    rw [hroot] at hout
    cases hout
  by_cases hrlevel : (s.logger s.m_root).m_level ≤ level
  · rw [forall_prop_of_true hrlevel]
    by_cases hrnil : (s.logger s.m_root).m_appenders = []
    · -- the recursion does not end
      refine iff_of_false ?_ fun hboth => hboth.1 hrnil
      rintro ⟨depth, out, hout, -⟩
      cases depth with
      | zero => cases hout
      | succ depth =>
        rw [hroot, log_root_none hrlevel hrnil] at hout
        cases hout
    · rw [and_iff_right hrnil]
      refine logged_iff_nodup (fun depth => ?_) (hone _) fun a => ?_
      · rw [hroot, log_own h hrlevel hrnil]
      · simp only [Due, mem_takers, hlevel, hnil, hrlevel, List.not_mem_nil, false_or, true_and]
  · refine iff_of_true ((@logged_iff_nodup s l level [] (fun depth => ?_) (hone _) fun a => ?_).mpr
      List.nodup_nil) fun hle => absurd hle hrlevel
    · rw [hroot, log_low hrlevel]
      rfl
    · simp only [Due, mem_takers, hnil, hrlevel, List.not_mem_nil, false_and, and_false, or_self]

/-- **One message** goes as promised exactly under its condition. -/
theorem logged_iff_heard (h : Inv s) (l : Nat) (level : LogLevel) :
    Logged s l level ↔ Heard s l level := by
  by_cases hlevel : (s.logger l).m_level ≤ level
  · rw [Heard, forall_prop_of_true hlevel]
    by_cases hnil : (s.logger l).m_appenders = []
    · rw [logged_iff_root h hlevel hnil, and_iff_right (absurd hnil), forall_prop_of_true hnil]
    · have hown := log_own h hlevel hnil
      rw [forall_prop_of_true hnil, and_iff_left (absurd · hnil)]
      refine logged_iff_nodup (fun _ => hown _) (fun out hout => ?_) fun a => ?_
      · exact Option.some.inj (hout.symm.trans (hown 0))
      · simp only [Due, mem_takers, hlevel, hnil, false_and, or_false, true_and]
  · have hlow := log_low hlevel
    refine iff_of_true ((@logged_iff_nodup s l level [] (fun _ => hlow _) (fun out hout => ?_)
      fun a => ?_).mpr List.nodup_nil) fun hle => absurd hle hlevel
    · exact Option.some.inj (hout.symm.trans (hlow 0))
    · simp only [Due, mem_takers, hlevel, List.not_mem_nil, false_and]

/-- **One deletion** goes as promised exactly if it is not an appender of the root. -/
theorem gone_iff (h : Inv s) (name : String) :
    Gone s name ↔ ∀ p ∈ (s.logger s.m_root).m_appenders, s.named name p = false := by
  obtain ⟨logger, hdel, hinv, hroot, hothers⟩ := h.delAppender_eq name
  rw [Gone, hdel]
  constructor
  · rintro ⟨s', hs', hgone⟩ p hp
    cases hs'
    obtain ⟨a, ha, rfl, -⟩ := h.live s.m_root p hp
    rw [← hroot] at hp
    -- a message of the highest level gets to it
    have hlog := log_own hinv (le_OFF (logger s.m_root).m_level) (List.ne_nil_of_mem hp) 0
    have hname := hgone s.m_root h.root_lt .OFF 1 _ hlog a (mem_takers.mpr ⟨hp, le_OFF _⟩)
    exact decide_eq_false hname
  · intro hnamed
    refine ⟨_, rfl, fun l hl level depth out hout a ha => ?_⟩
    have hnot : s.named name (some a) = false := by
      have hrootMem : some a ∈ (logger s.m_root).m_appenders → s.named name (some a) = false :=
        fun hmem => hnamed _ (hroot ▸ hmem)
      rcases log_mem hinv hout ha with hmem | hmem
      · rcases eq_or_ne l s.m_root with rfl | hne
        · exact hrootMem hmem
        · change some a ∈ (logger l).m_appenders at hmem
          rw [hothers l hl hne] at hmem
          simpa using (List.mem_filter.mp hmem).2
      · exact hrootMem hmem
    exact of_decide_eq_false hnot

/-- **A message without end**: the root has lost its appenders. -/
theorem log_without_end : ¬ ∀ s, system.Reachable (some s) →
    (∀ l < s.nextLogger, ∀ level, Logged s l level) ∧ ∀ name, Gone s name := by
  intro h
  have hreach : system.Reachable (some (State.init.clearAppender 0)) :=
    .step (a := .clearAppender 0) (.init rfl) trivial rfl
  obtain ⟨depth, out, hout, -⟩ := (h _ hreach).1 0 (by decide) .INFO
  have hnone : (State.init.clearAppender 0).log depth 0 .INFO = none :=
    log_root_none (by decide +kernel) (by decide +kernel) depth
  rw [hnone] at hout
  cases hout

/-- **All messages and all deletions**: each of them, in every state that is reached, goes as
    promised exactly under its condition. -/
theorem logged_iff (hs : system.Reachable (some s)) :
    (∀ l < s.nextLogger, ∀ level, Logged s l level ↔ Heard s l level) ∧
    ∀ name, Gone s name ↔ ∀ p ∈ (s.logger s.m_root).m_appenders, s.named name p = false :=
  have h := reachable_inv hs
  ⟨fun l _ level => logged_iff_heard h l level, gone_iff h⟩

theorem logged_iff_init : Logged State.init 0 .INFO ∧ Gone State.init "file" := by
  have h := logged_iff (s := State.init) (.init rfl)
  exact ⟨((h.1 0 (by decide) .INFO).mpr fun _ => by decide +kernel),
    (h.2 "file").mpr (by decide +kernel)⟩

end LimWebserver.LogManager
