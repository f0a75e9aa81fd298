import LimWebserver.Lib.Transition
import LimWebserver.Splog.LogInitializer
import Mathlib.Data.List.AList

namespace LimWebserver.LogManager

open LimWebserver.Lib LogInitializer

/-!
# Splog — `LogManager`, its loggers and appenders

Loggers and appenders are objects that the two maps of `LogManager`, the lists of the loggers and
the callers refer to.  Appenders are those that are constructed from a define (console and file
appenders with their formatter and sink); whether a new one is started is the environment's choice,
since `m_started` has no initializer.

* `Appender`, `Logger`, `State` — the objects and the maps;
* `addAppender`, `getLogger`, … — the functions; a null pointer that is dereferenced is `none`;
* `Action`, `step`, `system` — all runs.
-/

/-- The levels in their order. -/
instance : LE LogLevel := ⟨fun a b => a.ctorIdx ≤ b.ctorIdx⟩

instance : DecidableLE LogLevel := fun a b => Nat.decLe a.ctorIdx b.ctorIdx

theorem le_OFF (level : LogLevel) : level ≤ .OFF := by
  cases level <;> decide

structure Appender where
  /-- `getType()` -/
  type : Int
  m_name : String
  m_level : LogLevel
  m_started : Bool
  deriving DecidableEq

structure Logger where
  m_name : String
  m_level : LogLevel
  /-- `none` is a null pointer. -/
  m_appenders : List (Option Nat)
  deriving DecidableEq

/-- The objects by their addresses, and the members of `LogManager`. -/
structure State where
  appender : Nat → Appender
  nextAppender : Nat
  logger : Nat → Logger
  nextLogger : Nat
  m_appenders : AList fun _ : String => Option Nat
  m_loggers : AList fun _ : String => Nat
  m_root : Nat

namespace State

/-- `init()` -/
def init : State where
  appender _ := ⟨0, "console", .TRACE, true⟩
  nextAppender := 1
  logger := Function.update (fun _ => ⟨"system", .DEBUG, [some 0]⟩) 0 ⟨"root", .DEBUG, [some 0]⟩
  nextLogger := 2
  m_appenders := AList.singleton "console" (some 0)
  m_loggers := AList.singleton "system" 1
  m_root := 0

variable (s : State)

/-! ### `Logger` -/

/-- An assignment to members of the logger `l`. -/
def setLogger (l : Nat) (lg : Logger) : State :=
  { s with logger := Function.update s.logger l lg }

def setName (l : Nat) (name : String) : State :=
  s.setLogger l { s.logger l with m_name := name }

def setLevel (l : Nat) (level : LogLevel) : State :=
  s.setLogger l { s.logger l with m_level := level }

def clearAppender (l : Nat) : State := s.setLogger l { s.logger l with m_appenders := [] }

/-- `appender->start()`, unless it is started -/
def start (a : Nat) : State :=
  { s with appender := Function.update s.appender a { s.appender a with m_started := true } }

def addAppender (l : Nat) (appender : Option Nat) : Option State :=
  appender.map fun a =>
    (s.start a).setLogger l
      { s.logger l with m_appenders := (s.logger l).m_appenders ++ [some a] }

/-- `appender->getName() == name` -/
def named (name : String) (appender : Option Nat) : Bool :=
  appender.any fun a => (s.appender a).m_name = name

/-- The list that `detachAppender(name)` leaves. -/
def detached (name : String) (l : Nat) : Logger :=
  { s.logger l with m_appenders := (s.logger l).m_appenders.filter fun p => ! s.named name p }

def detachAppender (l : Nat) (name : String) : Option State :=
  if none ∈ (s.logger l).m_appenders then none else some (s.setLogger l (s.detached name l))

/-! ### `LogManager` -/

/-- A new appender, of the class of `lad.type`. -/
def newAppender (lad : LogAppenderDefine String) (m_started : Bool) : State × Nat :=
  ({ s with
      appender := Function.update s.appender s.nextAppender
        ⟨lad.type, lad.name, lad.level, m_started⟩
      nextAppender := s.nextAppender + 1 },
    s.nextAppender)

/-- A new logger, which `m_loggers[name]` points to. -/
def newLogger (name : String) (lg : Logger) : State × Nat :=
  ({ s with
      logger := Function.update s.logger s.nextLogger lg
      nextLogger := s.nextLogger + 1
      m_loggers := s.m_loggers.insert name s.nextLogger },
    s.nextLogger)

def getLogger (name : String) : State × Nat :=
  if (s.logger s.m_root).m_name = name then (s, s.m_root)
  else
    match s.m_loggers.lookup name with
    | some l => (s, l)
    | none => s.newLogger name ⟨name, .DEBUG, []⟩

def delLogger (name : String) : State :=
  match s.m_loggers.lookup name with
  | some l => (s.clearAppender l).setLevel l .OFF
  | none => s

/-- `m_appenders[name]` -/
def appenderAt (name : String) : State × Option Nat :=
  match s.m_appenders.lookup name with
  | some p => (s, p)
  | none => ({ s with m_appenders := s.m_appenders.insert name none }, none)

/-- `logger->addAppender(m_appenders[name])` -/
def addRef (l : Nat) (name : String) : Option State :=
  (s.appenderAt name).1.addAppender l (s.appenderAt name).2

def updateLogger (l : Nat) (ld : LoggerDefine String) : Option State :=
  ld.appender_refs.foldlM (fun s name => s.addRef l name)
    (((s.setName l ld.name).setLevel l ld.level).clearAppender l)

def createLogger (ld : LoggerDefine String) : Option State :=
  let (s, l) := s.newLogger ld.name ⟨"", .DEBUG, []⟩
  s.updateLogger l ld

def createOrUpdateLogger (ld : LoggerDefine String) : Option State :=
  match s.m_loggers.lookup ld.name with
  | some l => s.updateLogger l ld
  | none => s.createLogger ld

def getAppender (name : String) : State × Option Nat :=
  match s.m_appenders.lookup name with
  | some p => (s, p)
  | none => s.appenderAt "console"

def delAppender (name : String) : Option State :=
  (s.m_loggers.entries.map Sigma.snd).foldlM (fun s l => s.detachAppender l name)
    { s with m_appenders := s.m_appenders.erase name }

def createAppender (lad : LogAppenderDefine String) (m_started : Bool) : State :=
  if lad.type = 0 ∨ lad.type = 1 then
    -- a file appender without a file, too: the null pointer is overwritten
    let (s, a) := s.newAppender lad m_started
    { s with m_appenders := s.m_appenders.insert lad.name (some a) }
  else { s with m_appenders := s.m_appenders.insert lad.name none }

def updateAppender (a : Nat) (lad : LogAppenderDefine String) : State :=
  { s with appender := Function.update s.appender a { s.appender a with m_name := lad.name } }

def createOrUpdateAppender (lad : LogAppenderDefine String) (m_started : Bool) : Option State :=
  match s.m_appenders.lookup lad.name with
  | some p => p.map fun a =>
    if (s.appender a).type ≠ lad.type then s else s.updateAppender a lad
  | none => some (s.createAppender lad m_started)

end State

/-! ### What they leave alone -/

namespace State

variable (s : State) (l : Nat) (lg : Logger)

@[simp] theorem setLogger_self : (s.setLogger l lg).logger l = lg := by
  show Function.update s.logger l lg l = lg
  rw [Function.update_self]

theorem setLogger_of_ne {l' : Nat} (hne : l' ≠ l) :
    (s.setLogger l lg).logger l' = s.logger l' := by
  show Function.update s.logger l lg l' = _
  rw [Function.update_of_ne hne]

@[simp] theorem named_setLogger (name : String) : (s.setLogger l lg).named name = s.named name :=
  rfl

theorem newLogger_self (name : String) : (s.newLogger name lg).1.logger s.nextLogger = lg :=
  s.setLogger_self s.nextLogger lg

theorem newLogger_of_ne (name : String) {l' : Nat} (hne : l' ≠ s.nextLogger) :
    (s.newLogger name lg).1.logger l' = s.logger l' :=
  s.setLogger_of_ne s.nextLogger lg hne

/-- A new entry of a map, and the old ones. -/
theorem lookup_insert {α : Type*} (m : AList fun _ : String => α) (name name' : String) (x : α) :
    (m.insert name x).lookup name' = if name' = name then some x else m.lookup name' := by
  split_ifs with heq
  · rw [heq, AList.lookup_insert]
  · exact AList.lookup_insert_ne heq

/-- The only entry of a map. -/
theorem lookup_singleton {α : Type*} (name name' : String) (x : α) :
    (AList.singleton name x : AList fun _ : String => α).lookup name' =
      if name' = name then some x else none := by
  rw [← AList.insert_empty, lookup_insert, AList.lookup_empty]

end State

/-! ### Runs -/

/-- The functions of `LogManager`, and what callers do with a logger that they have got. -/
inductive Action
  | createOrUpdateAppender (lad : LogAppenderDefine String) (m_started : Bool)
  | delAppender (name : String)
  | getAppender (name : String)
  | createOrUpdateLogger (ld : LoggerDefine String)
  | delLogger (name : String)
  | getLogger (name : String)
  | newAppender (lad : LogAppenderDefine String) (m_started : Bool)
  | addAppender (l a : Nat)
  | detachAppender (l : Nat) (name : String)
  | clearAppender (l : Nat)
  | setLevel (l : Nat) (level : LogLevel)
  | setName (l : Nat) (name : String)
  deriving DecidableEq

/-- The objects that a caller names are there, and there is no class of another type. -/
def enabled (s : State) : Action → Bool
  | .newAppender lad _ => lad.type = 0 ∨ lad.type = 1
  | .addAppender l a => l < s.nextLogger ∧ a < s.nextAppender
  | .detachAppender l _ | .clearAppender l | .setLevel l _ | .setName l _ => l < s.nextLogger
  | _ => true

/-- One call; none: a null pointer is dereferenced. -/
def perform (s : State) : Action → Option State
  | .createOrUpdateAppender lad m_started => s.createOrUpdateAppender lad m_started
  | .delAppender name => s.delAppender name
  | .getAppender name => some (s.getAppender name).1
  | .createOrUpdateLogger ld => s.createOrUpdateLogger ld
  | .delLogger name => some (s.delLogger name)
  | .getLogger name => some (s.getLogger name).1
  | .newAppender lad m_started => some (s.newAppender lad m_started).1
  | .addAppender l a => s.addAppender l (some a)
  | .detachAppender l name => s.detachAppender l name
  | .clearAppender l => some (s.clearAppender l)
  | .setLevel l level => some (s.setLevel l level)
  | .setName l name => some (s.setName l name)

/-- Nothing is called behind a crash. -/
def step : Option State → Action → Option (Option State)
  | none, _ => none
  | some s, a => if enabled s a then some (perform s a) else none

/-- All runs; a crash is `none`. -/
def system : LTS (Option State) Action where
  init s := s = some State.init
  step := step

end LimWebserver.LogManager
