import LimWebserver.Splog.LogManagerUpdate

namespace LimWebserver.LogManager

open LimWebserver.Lib LogInitializer

/-!
# Splog — null appenders

`m_appenders[name]` inserts a null pointer where there is no entry, and `createAppender` makes one
of an unknown type.  A null entry may be overwritten by nothing, but it may be erased again, so that
the promise is about all the states of a run.

* `Sound` — the promise of one state; `Kept` — the condition of one call;
* `addRefs_none` — a reference that is missing crashes;
* `sound_missing` — such a run; `sound_iff_kept` — all runs.
-/

/-- **What is promised**: no null pointer is stored, and there has been no crash. -/
def Sound : Option State → Prop
  | none => False
  | some s => (∀ name p, s.m_appenders.lookup name = some p → p ≠ none) ∧
      ∀ l < s.nextLogger, none ∉ (s.logger l).m_appenders

/-- **The condition**: a new appender is of a known type, the references exist, and an appender that
    is asked for exists, or `console` does. -/
def Kept : Option State → Action → Prop
  | some s, .createOrUpdateAppender lad _ =>
    lad.name ∈ s.m_appenders ∨ lad.type = 0 ∨ lad.type = 1
  | some s, .getAppender name => name ∈ s.m_appenders ∨ "console" ∈ s.m_appenders
  | some s, .createOrUpdateLogger ld => ∀ name ∈ ld.appender_refs, name ∈ s.m_appenders
  | _, _ => True

/-- The entries are not null. -/
def NonNull (s : State) : Prop := ∀ name, s.m_appenders.lookup name ≠ some none

theorem nonNull_init : NonNull State.init := by
  intro name hnull
  rw [State.init, State.lookup_singleton] at hnull
  split_ifs at hnull
  cases hnull

namespace NonNull

variable {s : State} (h : NonNull s)
include h

/-- An entry is an appender that exists. -/
theorem exists_of_mem {name : String} (hmem : name ∈ s.m_appenders) : Exists s name := by
  obtain ⟨p, hp⟩ := Option.isSome_iff_exists.mp (AList.lookup_isSome.mpr hmem)
  cases p with
  | none => exact absurd hp (h name)
  | some a => exact ⟨a, hp⟩

/-- **A reference that is missing** crashes `updateLogger`. -/
theorem addRefs_none {names : List String} (hmissing : ∃ name ∈ names, name ∉ s.m_appenders)
    (l : Nat) : names.foldlM (fun s name => s.addRef l name) s = none := by
  induction names generalizing s with
  | nil =>
    obtain ⟨name, hname, -⟩ := hmissing
    cases hname
  | cons name names ih =>
    rw [List.foldlM_cons]
    by_cases hmem : name ∈ s.m_appenders
    · -- the first one is added, and the entries stay the same
      obtain ⟨a, ha⟩ := h.exists_of_mem hmem
      rw [addRef_eq ha, Option.bind_eq_bind, Option.bind_some]
      refine ih h ?_
      obtain ⟨missing, hin, hnot⟩ := hmissing
      rcases List.mem_cons.mp hin with rfl | hin
      · exact absurd hmem hnot
      · exact ⟨missing, hin, hnot⟩
    · rw [State.addRef, State.appenderAt, AList.lookup_eq_none.mpr hmem]
      rfl

/-- So it does `createOrUpdateLogger`. -/
theorem createOrUpdateLogger_none {ld : LoggerDefine String}
    (hmissing : ∃ name ∈ ld.appender_refs, name ∉ s.m_appenders) :
    s.createOrUpdateLogger ld = none := by
  rw [State.createOrUpdateLogger]
  cases s.m_loggers.lookup ld.name with
  | some l =>
    exact addRefs_none (s := ((s.setName l ld.name).setLevel l ld.level).clearAppender l) h
      hmissing l
  | none =>
    exact addRefs_none (s := ((((s.newLogger ld.name ⟨"", .DEBUG, []⟩).1.setName s.nextLogger
      ld.name).setLevel s.nextLogger ld.level).clearAppender s.nextLogger)) h hmissing _

/-- An entry that is not null keeps it so. -/
theorem insert {name : String} {a : Nat} {appender : Nat → Appender} {nextAppender : Nat} :
    NonNull { s with
      appender := appender
      nextAppender := nextAppender
      m_appenders := s.m_appenders.insert name (some a) } := by
  intro name' hnull
  rw [State.lookup_insert] at hnull
  split_ifs at hnull
  · cases hnull
  · exact h name' hnull

end NonNull

/-- Looking for an appender that is there, or for `console`, inserts nothing. -/
theorem getAppender_eq {s : State} {name : String}
    (hmem : name ∈ s.m_appenders ∨ "console" ∈ s.m_appenders) : (s.getAppender name).1 = s := by
  rw [State.getAppender]
  cases hname : s.m_appenders.lookup name with
  | some p => rfl
  | none =>
    have hconsole := hmem.resolve_left (AList.lookup_eq_none.mp hname)
    obtain ⟨p, hp⟩ := Option.isSome_iff_exists.mp (AList.lookup_isSome.mpr hconsole)
    rw [State.appenderAt, hp]

/-- **A call that meets the condition** does not crash and stores no null pointer. -/
theorem perform_kept {s : State} (h : Inv s) (hnull : NonNull s) {a : Action}
    (hkept : Kept (some s) a) : ∃ s', perform s a = some s' ∧ NonNull s' := by
  cases a with
  | createOrUpdateAppender lad m_started =>
    rw [perform, State.createOrUpdateAppender]
    cases hname : s.m_appenders.lookup lad.name with
    | some p =>
      cases p with
      | none => exact absurd hname (hnull lad.name)
      | some a =>
        refine ⟨_, rfl, ?_⟩
        dsimp only
        split_ifs
        · exact hnull
        · exact hnull
    | none =>
      refine ⟨_, rfl, ?_⟩
      rw [State.createAppender, if_pos (hkept.resolve_left (AList.lookup_eq_none.mp hname))]
      exact hnull.insert
  | delAppender name =>
    obtain ⟨logger, hdel, -⟩ := h.delAppender_eq name
    refine ⟨_, hdel, fun name' hnone => ?_⟩
    rcases eq_or_ne name' name with rfl | hne
    · rw [AList.lookup_erase] at hnone
      cases hnone
    · rw [AList.lookup_erase_ne hne] at hnone
      exact hnull name' hnone
  | getAppender name => exact ⟨s, congrArg some (getAppender_eq hkept), hnull⟩
  | createOrUpdateLogger ld =>
    obtain ⟨s', l, hcall, u⟩ := createOrUpdateLogger_eq h
      fun name hname => hnull.exists_of_mem (hkept name hname)
    refine ⟨s', hcall, ?_⟩
    rw [NonNull, u.m_appenders]
    exact hnull
  | delLogger name =>
    refine ⟨_, rfl, ?_⟩
    rw [State.delLogger]
    cases s.m_loggers.lookup name <;> exact hnull
  | getLogger name =>
    refine ⟨_, rfl, ?_⟩
    rw [State.getLogger]
    split_ifs
    · exact hnull
    · cases s.m_loggers.lookup name <;> exact hnull
  | detachAppender l name => exact ⟨_, h.detachAppender_eq l name, hnull⟩
  | _ => exact ⟨_, rfl, hnull⟩

/-- **A call that does not meet the condition** stores a null pointer or crashes. -/
theorem perform_broken {s : State} (hnull : NonNull s) {a : Action}
    (hbroken : ¬ Kept (some s) a) : ¬ Sound (perform s a) ∧ enabled s a = true := by
  cases a with
  | createOrUpdateAppender lad m_started =>
    obtain ⟨hname, htype⟩ := not_or.mp hbroken
    refine ⟨fun hsound => ?_, rfl⟩
    rw [perform, State.createOrUpdateAppender, AList.lookup_eq_none.mpr hname] at hsound
    refine hsound.1 lad.name none ?_ rfl
    rw [State.createAppender, if_neg htype]
    exact AList.lookup_insert _
  | getAppender name =>
    obtain ⟨hname, hconsole⟩ := not_or.mp hbroken
    refine ⟨fun hsound => hsound.1 "console" none ?_ rfl, rfl⟩
    rw [State.getAppender, AList.lookup_eq_none.mpr hname]
    rw [State.appenderAt, AList.lookup_eq_none.mpr hconsole]
    exact AList.lookup_insert _
  | createOrUpdateLogger ld =>
    have hmissing : ∃ name ∈ ld.appender_refs, name ∉ s.m_appenders := by
      by_contra hall
      exact hbroken fun name hname => by_contra fun hnot => hall ⟨name, hname, hnot⟩
    rw [perform, hnull.createOrUpdateLogger_none hmissing]
    exact ⟨id, rfl⟩
  | _ => exact absurd trivial hbroken

/-- **A missing reference**: `updateLogger` dereferences what `operator[]` has inserted. -/
theorem sound_missing : ¬ ∀ as, system.Along Sound (some State.init) as := by
  intro h
  have hcrash :
      perform State.init (.createOrUpdateLogger ⟨"database", ["missing"], .INFO⟩) = none :=
    Option.isNone_iff_eq_none.mp (by decide +kernel)
  exact (h [.createOrUpdateLogger ⟨"database", ["missing"], .INFO⟩]).2 none (congrArg some hcrash)

/-- **All runs**: no null pointer is stored or dereferenced exactly as long as each call meets the
    condition. -/
theorem sound_iff_kept (as : List Action) :
    system.Along Sound (some State.init) as ↔ system.Guarded Kept (some State.init) as := by
  refine LTS.along_iff_guarded (I := fun o => ∃ s, o = some s ∧ Inv s ∧ NonNull s) ?_ ?_ ?_
    ⟨State.init, rfl, inv_init, nonNull_init⟩
  · rintro _ ⟨s, rfl, h, hnull⟩
    exact ⟨fun name p hp hnone => hnull name (hnone ▸ hp), fun l _ => h.none_notMem l⟩
  · rintro _ a o ⟨s, rfl, h, hnull⟩ hkept hs
    obtain ⟨ha, rfl⟩ := of_step hs
    obtain ⟨s', hs', hnull'⟩ := perform_kept h hnull hkept
    exact ⟨s', hs', inv_perform h ha hs', hnull'⟩
  · rintro _ a ⟨s, rfl, h, hnull⟩ hbroken
    obtain ⟨hunsound, ha⟩ := perform_broken hnull hbroken
    exact ⟨perform s a, if_pos ha, hunsound⟩

end LimWebserver.LogManager
