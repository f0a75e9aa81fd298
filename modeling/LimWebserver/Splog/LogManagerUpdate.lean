import LimWebserver.Splog.LogManagerInv

namespace LimWebserver.LogManager

open LimWebserver.Lib LogInitializer

/-!
# Splog — `createOrUpdateLogger`

`createOrUpdateLogger` looks only into `m_loggers`, `getLogger` at `m_root` first.  A define with
the name of the root makes a logger, or updates one, that no `getLogger` returns.

* `State.pointer`, `State.find` — what the two maps hold under a name;
* `addRefs_eq` — the loop over the references; `Updated`, `createOrUpdateLogger_eq` — the whole
  function;
* `Configured` — what the function promises; `configured_root` — the shipped `root`;
* `configured_iff` — every state and every define.
-/

namespace State

variable (s : State)

/-- The pointer to the appender of a name. -/
def pointer (name : String) : Option Nat := (s.m_appenders.lookup name).join

/-- The logger that `getLogger(name)` returns, if it does not create one. -/
def find (name : String) : Option Nat :=
  if (s.logger s.m_root).m_name = name then some s.m_root else s.m_loggers.lookup name

end State

/-- **What is promised**: `getLogger` returns a logger with the level and the appenders of the
    define, and under any other name there is the same logger as before. -/
def Configured (s : State) (ld : LoggerDefine String) : Prop :=
  ∃ s', s.createOrUpdateLogger ld = some s' ∧
    ((s'.getLogger ld.name).1.logger (s'.getLogger ld.name).2).m_level = ld.level ∧
    ((s'.getLogger ld.name).1.logger (s'.getLogger ld.name).2).m_appenders =
      ld.appender_refs.map s.pointer ∧
    ∀ name ≠ ld.name, s'.find name = s.find name ∧
      ∀ l, s.find name = some l → s'.logger l = s.logger l

/-- The appender of a name exists. -/
def Exists (s : State) (name : String) : Prop := ∃ a, s.m_appenders.lookup name = some (some a)

/-- Adding a reference that exists. -/
theorem addRef_eq {s : State} {name : String} {a : Nat}
    (ha : s.m_appenders.lookup name = some (some a)) (l : Nat) :
    s.addRef l name = some ((s.start a).setLogger l
      { s.logger l with m_appenders := (s.logger l).m_appenders ++ [some a] }) := by
  rw [State.addRef, State.appenderAt, ha]
  rfl

/-- **Adding references that exist** changes, but for starting appenders, the logger only. -/
theorem addRefs_eq {s : State} {names : List String} (hex : ∀ name ∈ names, Exists s name)
    (l : Nat) : ∃ appender : Nat → Appender, names.foldlM (fun s name => s.addRef l name) s =
      some (({ s with appender := appender } : State).setLogger l
        { s.logger l with
          m_appenders := (s.logger l).m_appenders ++ names.map s.pointer }) := by
  induction names generalizing s with
  | nil =>
    refine ⟨s.appender, ?_⟩
    rw [List.map_nil, List.append_nil, State.setLogger]
    show some s = some { s with logger := Function.update s.logger l (s.logger l) }
    rw [Function.update_eq_self]
  | cons name names ih =>
    obtain ⟨⟨a, ha⟩, hrest⟩ := List.forall_mem_cons.mp hex
    obtain ⟨appender, hfold⟩ := @ih ((s.start a).setLogger l
      { s.logger l with m_appenders := (s.logger l).m_appenders ++ [some a] }) hrest
    refine ⟨appender, ?_⟩
    rw [List.foldlM_cons, addRef_eq ha, Option.bind_eq_bind, Option.bind_some, hfold]
    simp only [State.setLogger, State.start, Function.update_self, Function.update_idem,
      List.map_cons, List.append_assoc, List.singleton_append]
    rw [show s.pointer name = some a by rw [State.pointer, ha, Option.join_some]]
    rfl

/-- **An update** whose references exist. -/
theorem updateLogger_eq {s : State} {ld : LoggerDefine String}
    (hex : ∀ name ∈ ld.appender_refs, Exists s name) (l : Nat) :
    ∃ appender : Nat → Appender, s.updateLogger l ld =
      some (({ s with appender := appender } : State).setLogger l
        ⟨ld.name, ld.level, ld.appender_refs.map s.pointer⟩) := by
  obtain ⟨appender, hfold⟩ :=
    addRefs_eq (s := ((s.setName l ld.name).setLevel l ld.level).clearAppender l) hex l
  refine ⟨appender, hfold.trans (congrArg some ?_)⟩
  simp only [State.setLogger, State.setName, State.setLevel, State.clearAppender,
    Function.update_self, Function.update_idem, List.nil_append]
  rfl

/-- The state `s'` behind a call for `ld`, in which `l` is the logger of `m_loggers`. -/
structure Updated (s : State) (ld : LoggerDefine String) (s' : State) (l : Nat) : Prop where
  m_appenders : s'.m_appenders = s.m_appenders
  m_root : s'.m_root = s.m_root
  ne_root : l ≠ s.m_root
  lookup : ∀ name, s'.m_loggers.lookup name =
    if name = ld.name then some l else s.m_loggers.lookup name
  own : ∀ name, s.m_loggers.lookup name = some l → name = ld.name
  logger : s'.logger l = ⟨ld.name, ld.level, ld.appender_refs.map s.pointer⟩
  others : ∀ l' < s.nextLogger, l' ≠ l → s'.logger l' = s.logger l'

/-- **The whole function**, if the references exist: it is the logger of `m_loggers` that is
    changed, or a new one of that name. -/
theorem createOrUpdateLogger_eq {s : State} (h : Inv s) {ld : LoggerDefine String}
    (hex : ∀ name ∈ ld.appender_refs, Exists s name) :
    ∃ s' l, s.createOrUpdateLogger ld = some s' ∧ Updated s ld s' l := by
  rw [State.createOrUpdateLogger]
  cases hname : s.m_loggers.lookup ld.name with
  | some l =>
    obtain ⟨appender, hupdate⟩ := updateLogger_eq hex l
    refine ⟨_, l, hupdate, rfl, rfl, (h.lookup_lt hname).2, fun name => ?_,
      fun name hl => h.lookup_inj hl hname, State.setLogger_self .., fun l' _ hne =>
        State.setLogger_of_ne _ _ _ hne⟩
    split_ifs with heq
    · rw [heq]
      exact hname
    · rfl
  | none =>
    obtain ⟨appender, hupdate⟩ := @updateLogger_eq (s.newLogger ld.name ⟨"", .DEBUG, []⟩).1 ld hex
      s.nextLogger
    refine ⟨_, s.nextLogger, hupdate, rfl, rfl, h.root_lt.ne', fun name => ?_,
      fun name hl => absurd (h.lookup_lt hl).1 (lt_irrefl _), State.setLogger_self ..,
      fun l' hlt hne => ?_⟩
    · exact State.lookup_insert s.m_loggers ld.name name s.nextLogger
    · rw [State.setLogger_of_ne _ _ _ hne]
      exact s.newLogger_of_ne _ ld.name hne

namespace Updated

variable {s s' : State} {ld : LoggerDefine String} {l : Nat} (u : Updated s ld s' l) (h : Inv s)
include u h

/-- The root is left alone. -/
theorem root : s'.logger s.m_root = s.logger s.m_root := u.others _ h.root_lt u.ne_root.symm

/-- Every other name is left alone. -/
theorem find {name : String} (hne : name ≠ ld.name) : s'.find name = s.find name ∧
    ∀ l', s.find name = some l' → s'.logger l' = s.logger l' := by
  refine ⟨?_, fun l' hl' => ?_⟩
  · rw [State.find, State.find, u.m_root, u.root h, u.lookup, if_neg hne]
  · rw [State.find] at hl'
    split_ifs at hl'
    · cases hl'
      exact u.root h
    · refine u.others l' (h.lookup_lt hl').1 ?_
      rintro rfl
      exact hne (u.own name hl')

/-- The root hides a logger of its name. -/
theorem getLogger : s'.getLogger ld.name =
    (s', if (s.logger s.m_root).m_name = ld.name then s.m_root else l) := by
  rw [State.getLogger, u.m_root, u.root h, u.lookup, if_pos rfl]
  split_ifs <;> rfl

end Updated

/-- **The shipped `root`**: `config/log.yaml` defines it, and `getLogger` returns the one that
    `init()` has made. -/
theorem configured_root : ¬ ∀ s, system.Reachable (some s) → ∀ ld : LoggerDefine String,
    (∀ name ∈ ld.appender_refs, Exists s name) → Configured s ld := by
  intro h
  have hlevel : (State.init.createOrUpdateLogger ⟨"root", ["console"], .INFO⟩).map
      (fun s' => ((s'.getLogger "root").1.logger (s'.getLogger "root").2).m_level) =
        some .DEBUG := by decide +kernel
  obtain ⟨s', hcall, hinfo, -⟩ := h State.init (.init rfl) ⟨"root", ["console"], .INFO⟩ (by
    intro name hmem
    rw [List.mem_singleton.mp hmem]
    exact ⟨0, by decide +kernel⟩)
  rw [hcall, Option.map_some, hinfo] at hlevel
  cases hlevel

/-- **The logger is configured** exactly if it is not the root's name that the define has, or the
    root is as the define says already. -/
theorem configured_iff {s : State} (hs : system.Reachable (some s)) (ld : LoggerDefine String)
    (hex : ∀ name ∈ ld.appender_refs, Exists s name) :
    Configured s ld ↔ ((s.logger s.m_root).m_name = ld.name →
      (s.logger s.m_root).m_level = ld.level ∧
      (s.logger s.m_root).m_appenders = ld.appender_refs.map s.pointer) := by
  have h := reachable_inv hs
  obtain ⟨s', l, hcall, u⟩ := createOrUpdateLogger_eq h hex
  have hconfigured : Configured s ld ↔
      ((s'.getLogger ld.name).1.logger (s'.getLogger ld.name).2).m_level = ld.level ∧
      ((s'.getLogger ld.name).1.logger (s'.getLogger ld.name).2).m_appenders =
        ld.appender_refs.map s.pointer := by
    rw [Configured]
    constructor
    · rintro ⟨t, ht, hlevel, happenders, -⟩
      obtain rfl : s' = t := Option.some.inj (hcall.symm.trans ht)
      exact ⟨hlevel, happenders⟩
    · intro hboth
      exact ⟨s', hcall, hboth.1, hboth.2, fun name hne => u.find h hne⟩
  rw [hconfigured, u.getLogger h]
  by_cases hname : (s.logger s.m_root).m_name = ld.name
  · rw [if_pos hname, u.root h, forall_prop_of_true hname]
  · rw [if_neg hname, u.logger]
    exact iff_of_true ⟨rfl, rfl⟩ fun heq => absurd heq hname

theorem configured_iff_database : Configured State.init ⟨"database", ["console"], .WARN⟩ := by
  have hconsole : ∀ name ∈ ["console"], Exists State.init name := by
    intro name hmem
    rw [List.mem_singleton.mp hmem]
    exact ⟨0, by decide +kernel⟩
  exact (configured_iff (.init rfl) ⟨"database", ["console"], .WARN⟩ hconsole).mpr
    fun heq => absurd heq (by decide +kernel)

end LimWebserver.LogManager
