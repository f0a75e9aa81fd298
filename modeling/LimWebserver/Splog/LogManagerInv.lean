import LimWebserver.Splog.LogManager

namespace LimWebserver.LogManager

open LimWebserver.Lib LogInitializer

/-!
# Splog — what holds of every `LogManager`

Whatever is called, in whatever order, with whatever defines:

* `Inv` — each logger but the root has its own entry, and the appenders of loggers are started;
* `Inv.setLogger`, `Inv.setAppenders`, `Inv.newLogger` — the three ways in which a state changes;
  `Inv.setAppender`, `Inv.insert`, `Inv.erase` — cases of the second;
* `Inv.delAppender_eq` — `delAppender` detaches from all loggers but the root;
* `inv_perform`, `reachable_inv` — a call keeps it, and a run.
-/

/-- A pointer to an appender that is there and started. -/
def Live (s : State) (p : Option Nat) : Prop :=
  ∃ a < s.nextAppender, p = some a ∧ (s.appender a).m_started = true

/-- **The invariant**: a logger is the root or has its own entry of `m_loggers`, its appenders have
    been started, and an appender has the name of its entry. -/
structure Inv (s : State) : Prop where
  root_lt : s.m_root < s.nextLogger
  lookup_lt : ∀ {name l}, s.m_loggers.lookup name = some l → l < s.nextLogger ∧ l ≠ s.m_root
  lookup_inj : ∀ {name name' l}, s.m_loggers.lookup name = some l →
    s.m_loggers.lookup name' = some l → name = name'
  registered : ∀ {l}, l < s.nextLogger → l ≠ s.m_root → ∃ name, s.m_loggers.lookup name = some l
  live : ∀ l, ∀ p ∈ (s.logger l).m_appenders, Live s p
  appender_name : ∀ {name a}, s.m_appenders.lookup name = some (some a) →
    a < s.nextAppender ∧ (s.appender a).m_name = name

theorem inv_init : Inv State.init where
  root_lt := by decide
  lookup_lt {name l} h := by
    rw [State.init, State.lookup_singleton] at h
    split_ifs at h
    cases h
    exact ⟨by decide, by decide⟩
  lookup_inj {name name' l} h h' := by
    rw [State.init, State.lookup_singleton] at h h'
    split_ifs at h h' with heq heq'
    exact heq.trans heq'.symm
  registered {l} hlt hne := by
    have hl : l = 1 := by
      change l < 2 at hlt
      change l ≠ 0 at hne
      omega
    exact ⟨"system", by rw [State.init, State.lookup_singleton, if_pos rfl, hl]⟩
  live l p hp := by
    have hlist : (State.init.logger l).m_appenders = [some 0] := by
      cases l <;> rfl
    rw [hlist, List.mem_singleton] at hp
    exact ⟨0, by decide, hp, rfl⟩
  appender_name {name a} h := by
    rw [State.init, State.lookup_singleton] at h
    split_ifs at h with heq
    cases h
    exact ⟨by decide, heq.symm⟩

namespace Inv

variable {s : State} (h : Inv s)
include h

/-- Assigning to a logger keeps the invariant if its appenders are started. -/
theorem setLogger {l : Nat} {lg : Logger} (hlive : ∀ p ∈ lg.m_appenders, Live s p) :
    Inv (s.setLogger l lg) where
  root_lt := h.root_lt
  lookup_lt := h.lookup_lt
  lookup_inj := h.lookup_inj
  registered := h.registered
  live l' p hp := by
    rcases eq_or_ne l' l with rfl | hne
    · rw [State.setLogger_self] at hp
      exact hlive p hp
    · rw [State.setLogger_of_ne s l lg hne] at hp
      exact h.live l' p hp
  appender_name := h.appender_name

/-- Changing the appenders keeps the invariant if the started ones stay, and the names of the
    entries are right. -/
theorem setAppenders {appender : Nat → Appender} {nextAppender : Nat}
    {m_appenders : AList fun _ : String => Option Nat}
    (hlive : ∀ a < s.nextAppender, (s.appender a).m_started = true →
      a < nextAppender ∧ (appender a).m_started = true)
    (hname : ∀ {name a}, m_appenders.lookup name = some (some a) →
      a < nextAppender ∧ (appender a).m_name = name) :
    Inv { s with
      appender := appender, nextAppender := nextAppender, m_appenders := m_appenders } where
  root_lt := h.root_lt
  lookup_lt := h.lookup_lt
  lookup_inj := h.lookup_inj
  registered := h.registered
  live l p hp := by
    obtain ⟨a, ha, rfl, hstarted⟩ := h.live l p hp
    obtain ⟨ha', hstarted'⟩ := hlive a ha hstarted
    exact ⟨a, ha', rfl, hstarted'⟩
  appender_name := hname

/-- A new logger without appenders keeps the invariant if the name has no entry. -/
theorem newLogger {name : String} {lg : Logger} (hname : s.m_loggers.lookup name = none)
    (hlg : lg.m_appenders = []) : Inv (s.newLogger name lg).1 where
  root_lt := Nat.lt_succ_of_lt h.root_lt
  lookup_lt {name' l} hl := by
    rw [State.newLogger, State.lookup_insert] at hl
    split_ifs at hl
    · cases hl
      exact ⟨Nat.lt_succ_self _, h.root_lt.ne'⟩
    · exact ⟨Nat.lt_succ_of_lt (h.lookup_lt hl).1, (h.lookup_lt hl).2⟩
  lookup_inj {name₁ name₂ l} h₁ h₂ := by
    rw [State.newLogger, State.lookup_insert] at h₁ h₂
    split_ifs at h₁ h₂ with heq₁ heq₂ heq₂
    · exact heq₁.trans heq₂.symm
    · cases h₁
      exact absurd (h.lookup_lt h₂).1 (lt_irrefl _)
    · cases h₂
      exact absurd (h.lookup_lt h₁).1 (lt_irrefl _)
    · exact h.lookup_inj h₁ h₂
  registered {l} hlt hne := by
    rcases Nat.lt_succ_iff_lt_or_eq.mp hlt with hold | rfl
    · obtain ⟨name', hl⟩ := h.registered hold hne
      refine ⟨name', ?_⟩
      rw [State.newLogger, State.lookup_insert, if_neg, hl]
      rintro rfl
      rw [hname] at hl
      cases hl
    · exact ⟨name, AList.lookup_insert s.m_loggers⟩
  live l p hp := by
    rcases eq_or_ne l s.nextLogger with rfl | hne
    · rw [s.newLogger_self lg name, hlg] at hp
      cases hp
    · rw [s.newLogger_of_ne lg name hne] at hp
      exact h.live l p hp
  appender_name := h.appender_name

/-- Assigning to an appender keeps the invariant if it stays started and has the name of its
    entry. -/
theorem setAppender {a : Nat} {x : Appender}
    (hstarted : (s.appender a).m_started = true → x.m_started = true)
    (hname : ∀ name, s.m_appenders.lookup name = some (some a) → x.m_name = name) :
    Inv { s with appender := Function.update s.appender a x } := by
  refine h.setAppenders (fun a' ha' hstarted' => ⟨ha', ?_⟩) fun {name a'} hname' => ?_
  · rw [Function.update_apply]
    split_ifs with hsame
    · exact hstarted (hsame ▸ hstarted')
    · exact hstarted'
  · refine ⟨(h.appender_name hname').1, ?_⟩
    rw [Function.update_apply]
    split_ifs with hsame
    · exact hname name (hsame ▸ hname')
    · exact (h.appender_name hname').2

theorem start (a : Nat) : Inv (s.start a) :=
  h.setAppender (fun _ => rfl) fun _ hname => (h.appender_name hname).2

theorem addAppender {l a : Nat} {s' : State} (ha : a < s.nextAppender)
    (hs : s.addAppender l (some a) = some s') : Inv s' := by
  cases hs
  refine (h.start a).setLogger fun p hp => ?_
  rcases List.mem_append.mp hp with hold | hnew
  · exact (h.start a).live l p hold
  · refine ⟨a, ha, List.mem_singleton.mp hnew, ?_⟩
    show (Function.update s.appender a _ a).m_started = true
    rw [Function.update_self]

theorem setName (l : Nat) (name : String) : Inv (s.setName l name) := h.setLogger (h.live l)

theorem setLevel (l : Nat) (level : LogLevel) : Inv (s.setLevel l level) := h.setLogger (h.live l)

theorem clearAppender (l : Nat) : Inv (s.clearAppender l) := h.setLogger nofun

theorem none_notMem (l : Nat) : none ∉ (s.logger l).m_appenders := by
  intro hmem
  obtain ⟨a, -, heq, -⟩ := h.live l none hmem
  cases heq

/-- No null pointer is in the way of `detachAppender`. -/
theorem detachAppender_eq (l : Nat) (name : String) :
    s.detachAppender l name = some (s.setLogger l (s.detached name l)) :=
  if_neg (h.none_notMem l)

theorem detachAppender (l : Nat) (name : String) : Inv (s.setLogger l (s.detached name l)) :=
  h.setLogger fun p hp => h.live l p (List.mem_of_mem_filter hp)

theorem getLogger (name : String) : Inv (s.getLogger name).1 := by
  rw [State.getLogger]
  split_ifs
  · exact h
  · cases hname : s.m_loggers.lookup name with
    | some l => exact h
    | none => exact h.newLogger hname rfl

theorem delLogger (name : String) : Inv (s.delLogger name) := by
  rw [State.delLogger]
  cases s.m_loggers.lookup name with
  | some l => exact (h.clearAppender l).setLevel l .OFF
  | none => exact h

/-- An entry of `m_appenders` that has the right name, or is null. -/
theorem insert {name : String} {p : Option Nat}
    (hp : ∀ a, p = some a → a < s.nextAppender ∧ (s.appender a).m_name = name) :
    Inv { s with m_appenders := s.m_appenders.insert name p } := by
  refine h.setAppenders (fun _ ha hstarted => ⟨ha, hstarted⟩) fun {name' a} ha => ?_
  rw [State.lookup_insert] at ha
  split_ifs at ha with heq
  · exact heq ▸ hp a (Option.some.inj ha)
  · exact h.appender_name ha

theorem appenderAt (name : String) : Inv (s.appenderAt name).1 := by
  rw [State.appenderAt]
  cases s.m_appenders.lookup name with
  | some p => exact h
  | none => exact h.insert nofun

theorem getAppender (name : String) : Inv (s.getAppender name).1 := by
  rw [State.getAppender]
  cases s.m_appenders.lookup name with
  | some p => exact h
  | none => exact h.appenderAt "console"

/-- What `m_appenders[name]` returns is there. -/
theorem appenderAt_lt {name : String} {a : Nat} (ha : (s.appenderAt name).2 = some a) :
    a < (s.appenderAt name).1.nextAppender := by
  rw [State.appenderAt] at ha ⊢
  cases hname : s.m_appenders.lookup name with
  | some p =>
    rw [hname] at ha
    exact (h.appender_name (hname.trans (congrArg some ha))).1
  | none =>
    rw [hname] at ha
    cases ha

theorem addRef {l : Nat} {name : String} {s' : State} (hs : s.addRef l name = some s') :
    Inv s' := by
  obtain ⟨a, ha, -⟩ := Option.map_eq_some_iff.mp hs
  rw [State.addRef, ha] at hs
  exact (h.appenderAt name).addAppender (h.appenderAt_lt ha) hs

omit h in
/-- The loop of `updateLogger` keeps the invariant. -/
theorem addRefs {l : Nat} {names : List String} (h : Inv s) {s' : State}
    (hs : names.foldlM (fun s name => s.addRef l name) s = some s') : Inv s' := by
  induction names generalizing s with
  | nil =>
    cases hs
    exact h
  | cons name names ih =>
    rw [List.foldlM_cons] at hs
    obtain ⟨t, ht, hs⟩ := Option.bind_eq_some_iff.mp hs
    exact ih (h.addRef ht) hs

theorem updateLogger {l : Nat} {ld : LoggerDefine String} {s' : State}
    (hs : s.updateLogger l ld = some s') : Inv s' :=
  (((h.setName l ld.name).setLevel l ld.level).clearAppender l).addRefs hs

theorem createOrUpdateLogger {ld : LoggerDefine String} {s' : State}
    (hs : s.createOrUpdateLogger ld = some s') : Inv s' := by
  rw [State.createOrUpdateLogger] at hs
  cases hname : s.m_loggers.lookup ld.name with
  | some l =>
    rw [hname] at hs
    exact h.updateLogger hs
  | none =>
    rw [hname] at hs
    exact (h.newLogger hname rfl).updateLogger hs

theorem newAppender (lad : LogAppenderDefine String) (m_started : Bool) :
    Inv (s.newAppender lad m_started).1 := by
  refine h.setAppenders (fun a ha hstarted => ⟨Nat.lt_succ_of_lt ha, ?_⟩)
    fun {name a} hname => ?_
  · rwa [Function.update_of_ne ha.ne]
  · obtain ⟨ha, heq⟩ := h.appender_name hname
    exact ⟨Nat.lt_succ_of_lt ha, by rwa [Function.update_of_ne ha.ne]⟩

theorem createOrUpdateAppender {lad : LogAppenderDefine String} {m_started : Bool} {s' : State}
    (hs : s.createOrUpdateAppender lad m_started = some s') : Inv s' := by
  rw [State.createOrUpdateAppender] at hs
  cases hname : s.m_appenders.lookup lad.name with
  | some p =>
    rw [hname] at hs
    obtain ⟨a, rfl, rfl⟩ := Option.map_eq_some_iff.mp hs
    split_ifs
    · exact h
    · -- the name that the appender has anyway
      exact h.setAppender id fun name ha =>
        (h.appender_name hname).2.symm.trans (h.appender_name ha).2
  | none =>
    rw [hname] at hs
    cases hs
    rw [State.createAppender]
    split_ifs
    · refine (h.newAppender lad m_started).insert fun a ha => ?_
      cases ha
      refine ⟨Nat.lt_succ_self _, ?_⟩
      show (Function.update s.appender s.nextAppender _ s.nextAppender).m_name = _
      rw [Function.update_self]
    · exact h.insert nofun

omit h in
/-- To detach twice is to detach once. -/
theorem detached_setLogger (name : String) (l l' : Nat) :
    (s.setLogger l (s.detached name l)).detached name l' = s.detached name l' := by
  rcases eq_or_ne l' l with rfl | hne
  · rw [State.detached, State.setLogger_self, State.detached, List.filter_filter]
    simp only [State.named_setLogger, Bool.and_self]
  · rw [State.detached, State.setLogger_of_ne _ _ _ hne]
    rfl

omit h in
/-- Detaching from some loggers. -/
theorem foldlM_detachAppender (h : Inv s) (name : String) (ls : List Nat) :
    ∃ logger : Nat → Logger, ls.foldlM (fun s l => s.detachAppender l name) s =
      some { s with logger := logger } ∧ Inv { s with logger := logger } ∧
      ∀ l, logger l = if l ∈ ls then s.detached name l else s.logger l := by
  induction ls generalizing s with
  | nil => exact ⟨s.logger, rfl, h, fun l => (if_neg List.not_mem_nil).symm⟩
  | cons l ls ih =>
    obtain ⟨logger, hfold, hinv, hlogger⟩ := ih (h.detachAppender l name)
    refine ⟨logger, ?_, hinv, fun l' => ?_⟩
    · rw [List.foldlM_cons, h.detachAppender_eq]
      exact hfold
    · rw [hlogger, detached_setLogger]
      by_cases hmem : l' ∈ ls
      · rw [if_pos hmem, if_pos (List.mem_cons_of_mem l hmem)]
      · rw [if_neg hmem]
        rcases eq_or_ne l' l with rfl | hne
        · rw [State.setLogger_self, if_pos List.mem_cons_self]
        · rw [State.setLogger_of_ne _ _ _ hne, if_neg (by simp [hne, hmem])]

theorem erase (name : String) : Inv { s with m_appenders := s.m_appenders.erase name } := by
  refine h.setAppenders (fun _ ha hstarted => ⟨ha, hstarted⟩) fun {name' a} ha => ?_
  rcases eq_or_ne name' name with rfl | hne
  · rw [AList.lookup_erase] at ha
    cases ha
  · rw [AList.lookup_erase_ne hne] at ha
    exact h.appender_name ha

omit h in
/-- The loggers that a loop over `m_loggers` comes to. -/
theorem mem_loggers {l : Nat} :
    l ∈ s.m_loggers.entries.map Sigma.snd ↔ ∃ name, s.m_loggers.lookup name = some l := by
  rw [List.mem_map]
  constructor
  · rintro ⟨e, he, rfl⟩
    exact ⟨e.1, AList.mem_lookup_iff.mpr he⟩
  · rintro ⟨name, hl⟩
    exact ⟨⟨name, l⟩, AList.mem_lookup_iff.mp hl, rfl⟩

/-- **What `delAppender` does**: the root keeps its appenders. -/
theorem delAppender_eq (name : String) :
    ∃ logger : Nat → Logger, s.delAppender name =
      some { s with m_appenders := s.m_appenders.erase name, logger := logger } ∧
      Inv { s with m_appenders := s.m_appenders.erase name, logger := logger } ∧
      logger s.m_root = s.logger s.m_root ∧
      ∀ l < s.nextLogger, l ≠ s.m_root → logger l = s.detached name l := by
  obtain ⟨logger, hfold, hinv, hlogger⟩ :=
    (h.erase name).foldlM_detachAppender name (s.m_loggers.entries.map Sigma.snd)
  refine ⟨logger, hfold, hinv, ?_, fun l hlt hne => ?_⟩
  · rw [hlogger, if_neg]
    intro hroot
    obtain ⟨name', hl⟩ := mem_loggers.mp hroot
    exact (h.lookup_lt hl).2 rfl
  · rw [hlogger, if_pos (mem_loggers.mpr (h.registered hlt hne))]
    rfl

theorem delAppender {name : String} {s' : State} (hs : s.delAppender name = some s') :
    Inv s' := by
  obtain ⟨logger, hdel, hinv, -, -⟩ := h.delAppender_eq name
  exact Option.some.inj (hdel.symm.trans hs) ▸ hinv

end Inv

/-- A call keeps the invariant, unless it crashes. -/
theorem inv_perform {s s' : State} {a : Action} (h : Inv s) (ha : enabled s a)
    (hs : perform s a = some s') : Inv s' := by
  cases a with
  | createOrUpdateAppender lad m_started => exact h.createOrUpdateAppender hs
  | delAppender name => exact h.delAppender hs
  | getAppender name => exact Option.some.inj hs ▸ h.getAppender name
  | createOrUpdateLogger ld => exact h.createOrUpdateLogger hs
  | delLogger name => exact Option.some.inj hs ▸ h.delLogger name
  | getLogger name => exact Option.some.inj hs ▸ h.getLogger name
  | newAppender lad m_started => exact Option.some.inj hs ▸ h.newAppender lad m_started
  | addAppender l a => exact h.addAppender (of_decide_eq_true ha).2 hs
  | detachAppender l name =>
    exact Option.some.inj ((h.detachAppender_eq l name).symm.trans hs) ▸ h.detachAppender l name
  | clearAppender l => exact Option.some.inj hs ▸ h.clearAppender l
  | setLevel l level => exact Option.some.inj hs ▸ h.setLevel l level
  | setName l name => exact Option.some.inj hs ▸ h.setName l name

/-- A step is a call that is enabled. -/
theorem of_step {s : State} {a : Action} {o : Option State}
    (hs : system.step (some s) a = some o) : enabled s a = true ∧ perform s a = o := by
  simpa only [system, step, Option.ite_none_right_eq_some, Option.some.injEq] using hs

/-- **Every run keeps the invariant**, until a crash. -/
theorem reachable_inv {s : State} (h : system.Reachable (some s)) : Inv s := by
  have hall : ∀ t ∈ some s, Inv t := by
    refine h.invariant (I := fun o => ∀ t ∈ o, Inv t) ?_ ?_
    · rintro o rfl t ht
      cases ht
      exact inv_init
    · rintro (_ | s) a o hinv - hs t ht
      · cases hs
      · obtain ⟨ha, rfl⟩ := of_step hs
        exact inv_perform (hinv s rfl) ha ht
  exact hall s rfl

end LimWebserver.LogManager
