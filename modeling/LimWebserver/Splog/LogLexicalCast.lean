import LimWebserver.Lib.Yaml
import LimWebserver.Splog.LogInitializer

namespace LimWebserver.LogInitializer

open Lib.Yaml

/-!
# Splog — the text of a log configuration

`LexicalCast` writes a `LogConfigerDefine` as a YAML text and reads it.  The library's emitter and
loader are parameters.

* `LogLevel.toString`, `LogLevel.fromString` — the names of the levels;
* `encodeAppender`, `encodeLogger`, `encode` — the node that is emitted;
* `decodeAppender`, `decodeLogger`, `decode` — what is read from a node;
* `decodeLogger_encodeLogger` — every logger comes back; `decodeAppender_encodeAppender` — no
  appender does, since its type is written as a name and read as a number;
* `lexicalCast_console` — a console appender; `lexicalCast_iff` — all configurations.
-/

/-! ### Levels -/

/-- `LogLevelHandler::ToString` -/
def LogLevel.toString : LogLevel → String
  | TRACE => "TRACE"
  | DEBUG => "DEBUG"
  | INFO => "INFO"
  | WARN => "WARN"
  | ERROR => "ERROR"
  | FATAL => "FATAL"
  | OFF => "OFF"
  | UNKNOWN => "UNKNOWN"

/-- `LogLevelHandler::FromString` -/
def LogLevel.fromString (val : String) : LogLevel :=
  if val = "TRACE" then .TRACE
  else if val = "DEBUG" then .DEBUG
  else if val = "INFO" then .INFO
  else if val = "WARN" then .WARN
  else if val = "ERROR" then .ERROR
  else if val = "FATAL" then .FATAL
  else if val = "OFF" then .OFF
  else .UNKNOWN

@[simp] theorem LogLevel.fromString_toString (level : LogLevel) :
    fromString level.toString = level := by
  cases level <;> decide

/-! ### Writing -/

/-- `LogAppenderDefine()` -/
def LogAppenderDefine.new : LogAppenderDefine String where
  type := 0
  name := ""
  file := ""
  formatter := "%d%T%t %N%T[%c] [%p] %f:%l%T%m%n"
  level := .UNKNOWN
  append := true

/-- `node[key] = v` under a condition. -/
def assignIf (c : Bool) (key v : String) (l : Entries) : Entries :=
  if c then l.assign key (.scalar v) else l

def encodeAppender (lad : LogAppenderDefine String) : Node :=
  let l : Entries :=
    if lad.type = 1 then
      ((Entries.assign [] "type" (.scalar "FileAppender")).assign "file" (.scalar lad.file)).assign
        "append" (.scalar (if lad.append then "true" else "false"))
    else if lad.type = 0 then Entries.assign [] "type" (.scalar "ConsoleAppender")
    else []
  (assignIf (lad.name ≠ "") "name" lad.name
    (assignIf (lad.formatter ≠ "") "formatter" lad.formatter
      (assignIf (lad.level ≠ .UNKNOWN) "level" lad.level.toString l))).node

def encodeLogger (ld : LoggerDefine String) : Node :=
  ((assignIf (ld.level ≠ .UNKNOWN) "level" ld.level.toString
    (Entries.assign [] "name" (.scalar ld.name))).pushAll "appender-ref"
      (ld.appender_refs.map Node.scalar)).node

/-- The node that `LexicalCast<LogConfigerDefine, std::string>` emits. -/
def encode (lcd : LogConfigerDefine String) : Node :=
  ((Entries.pushAll [] "appenders" (lcd.appenders.map encodeAppender)).pushAll "loggers"
    (lcd.loggers.map encodeLogger)).node

/-! ### Reading -/

/-- `LogLevelHandler::FromString(node.as<std::string>())` -/
def asLevel (node : Node) : Except Exception LogLevel := node.asString.map LogLevel.fromString

section

variable (asBool : Node → Except Exception Bool)

/-- One round of the loop over the appenders; none is a message on `std::cout` and `continue`. -/
def decodeAppender (node : Node) : Except Exception (Option (LogAppenderDefine String)) := do
  match ← node.get "type" with
  | none => pure none
  | some t =>
    let type ← t.asString
    if type = "1" then
      match ← node.get "file" with
      | none => pure none
      | some f =>
        let file ← f.asString
        let name ← node.field "name" Node.asString LogAppenderDefine.new.name
        let append ← node.field "append" asBool LogAppenderDefine.new.append
        let level ← node.field "level" asLevel LogAppenderDefine.new.level
        let formatter ← node.field "formatter" Node.asString LogAppenderDefine.new.formatter
        pure (some ⟨1, name, file, formatter, level, append⟩)
    else if type = "0" then
      let level ← node.field "level" asLevel LogAppenderDefine.new.level
      let name ← node.field "name" Node.asString LogAppenderDefine.new.name
      let formatter ← node.field "formatter" Node.asString LogAppenderDefine.new.formatter
      pure (some { LogAppenderDefine.new with type := 0, name, formatter, level })
    else pure none

/-- One round of the loop over the loggers. -/
def decodeLogger (node : Node) : Except Exception (LoggerDefine String) := do
  match ← node.get "name" with
  | none => throw (.logic_error "log config name is null")
  | some n =>
    let name ← n.asString
    let level ← node.field "level" asLevel (LogLevel.fromString "")
    let appender_refs ← node.field "appender-ref" Node.asStrings []
    pure ⟨name, appender_refs, level⟩

/-- The items of a key that may be missing. -/
def itemsOf (node : Node) (key : String) : Except Exception (List Node) :=
  (node.get key).map fun n => (n.map Node.items).getD []

/-- What `LexicalCast<std::string, LogConfigerDefine>` makes of the node that it has loaded. -/
def decode (node : Node) : Except Exception (LogConfigerDefine String) := do
  let appenders ← (← itemsOf node "appenders").mapM (decodeAppender asBool)
  let loggers ← (← itemsOf node "loggers").mapM decodeLogger
  pure ⟨loggers, appenders.filterMap id⟩

variable {Text : Type} (emit : Node → Text) (load : Text → Option Node)

/-- `LexicalCast<LogConfigerDefine, std::string>` -/
def toText (lcd : LogConfigerDefine String) : Text := emit (encode lcd)

/-- `LexicalCast<std::string, LogConfigerDefine>` -/
def fromText (v : Text) : Except Exception (LogConfigerDefine String) :=
  match load v with
  | none => .error .ParserException
  | some node => decode asBool node

end

/-! ### What is read of what has been written -/

/-- What is read of several things that have been written. -/
theorem mapM_written {α β γ : Type} {written : α → γ} {read : γ → Except Exception β} {g : α → β}
    (h : ∀ a, read (written a) = .ok (g a)) (l : List α) :
    (l.map written).mapM read = .ok (l.map g) := by
  induction l with
  | nil => rfl
  | cons a l ih =>
    rw [List.map_cons, List.mapM_cons, h a, ih]
    rfl

section Lookup

variable {c : Bool} {key key' v : String} {l : Entries}

theorem lookup_assignIf_of_ne (h : key' ≠ key) :
    (assignIf c key v l).lookup key' = l.lookup key' := by
  cases c with
  | false => rfl
  | true => exact Entries.lookup_assign_of_ne h

/-- What a key is read as that has been written unless it has its default. -/
theorem lookup_assignIf (h : l.lookup key = none) :
    (assignIf c key v l).lookup key = if c then some (.scalar v) else none := by
  cases c with
  | false => exact h
  | true => exact Entries.lookup_assign l key (.scalar v)

end Lookup

/-- **No appender comes back**: its type is the name of a class, or is missing. -/
theorem decodeAppender_encodeAppender (asBool : Node → Except Exception Bool)
    (lad : LogAppenderDefine String) : decodeAppender asBool (encodeAppender lad) = .ok none := by
  have htype : ∃ t, (encodeAppender lad).get "type" = .ok t ∧
      (t = none ∨ t = some (.scalar "FileAppender") ∨ t = some (.scalar "ConsoleAppender")) := by
    refine ⟨_, Entries.get_node _ _, ?_⟩
    rw [lookup_assignIf_of_ne (by decide), lookup_assignIf_of_ne (by decide),
      lookup_assignIf_of_ne (by decide)]
    by_cases hfile : lad.type = 1
    · rw [if_pos hfile]
      exact .inr (.inl rfl)
    · rw [if_neg hfile]
      split_ifs
      · exact .inr (.inr rfl)
      · exact .inl rfl
  obtain ⟨t, hget, ht⟩ := htype
  rw [decodeAppender, hget]
  rcases ht with rfl | rfl | rfl
  · rfl
  · rfl
  · rfl

theorem asStrings_map (l : List String) :
    Node.asStrings (.sequence (l.map Node.scalar)) = .ok l := by
  have hread : ∀ v, Node.asString (.scalar v) = .ok (id v) := fun _ => rfl
  rw [Node.asStrings, mapM_written hread, List.map_id]

/-- **Every logger comes back.** -/
theorem decodeLogger_encodeLogger (ld : LoggerDefine String) :
    decodeLogger (encodeLogger ld) = .ok ld := by
  have hname : (encodeLogger ld).get "name" = .ok (some (.scalar ld.name)) := by
    rw [encodeLogger, Entries.get_node, Entries.lookup_pushAll_of_ne (by decide),
      lookup_assignIf_of_ne (by decide)]
    rfl
  have hlevel : (encodeLogger ld).field "level" asLevel (LogLevel.fromString "") =
      .ok ld.level := by
    rw [Node.field, encodeLogger, Entries.get_node, Entries.lookup_pushAll_of_ne (by decide),
      lookup_assignIf rfl]
    by_cases h : ld.level = .UNKNOWN
    · rw [h]
      rfl
    · rw [if_pos (by simpa using h)]
      show Except.ok (LogLevel.fromString ld.level.toString) = _
      rw [LogLevel.fromString_toString]
  have hrefs : (encodeLogger ld).field "appender-ref" Node.asStrings [] =
      .ok ld.appender_refs := by
    have hnone : (assignIf (ld.level ≠ .UNKNOWN) "level" ld.level.toString
        (Entries.assign [] "name" (.scalar ld.name))).lookup "appender-ref" = none := by
      rw [lookup_assignIf_of_ne (by decide)]
      rfl
    rw [Node.field, encodeLogger, Entries.get_node, Entries.lookup_pushAll hnone]
    split_ifs with h
    · rw [List.map_eq_nil_iff.mp h]
      rfl
    · exact asStrings_map ld.appender_refs
  rw [decodeLogger, hname]
  show (do
    let level ← (encodeLogger ld).field "level" asLevel (LogLevel.fromString "")
    let appender_refs ← (encodeLogger ld).field "appender-ref" Node.asStrings []
    pure (⟨ld.name, appender_refs, level⟩ : LoggerDefine String) :
      Except Exception (LoggerDefine String)) = _
  rw [hlevel, hrefs]
  rfl

/-- **The configuration comes back without its appenders.** -/
theorem decode_encode (asBool : Node → Except Exception Bool) (lcd : LogConfigerDefine String) :
    decode asBool (encode lcd) = .ok { lcd with appenders := [] } := by
  have hitems : ∀ l : List Node, ((if l = [] then none else some (.sequence l) :
      Option Node).map Node.items).getD [] = l := by
    intro l
    split_ifs with h
    · rw [h]
      rfl
    · rfl
  have happenders : itemsOf (encode lcd) "appenders" =
      .ok (lcd.appenders.map encodeAppender) := by
    rw [itemsOf, encode, Entries.get_node, Entries.lookup_pushAll_of_ne (by decide),
      Entries.lookup_pushAll rfl]
    exact congrArg Except.ok (hitems _)
  have hloggers : itemsOf (encode lcd) "loggers" = .ok (lcd.loggers.map encodeLogger) := by
    have hnone : (Entries.pushAll [] "appenders" (lcd.appenders.map encodeAppender)).lookup
        "loggers" = none := Entries.lookup_pushAll_of_ne (by decide) _
    rw [itemsOf, encode, Entries.get_node, Entries.lookup_pushAll hnone]
    exact congrArg Except.ok (hitems _)
  have hread : (lcd.appenders.map encodeAppender).mapM (decodeAppender asBool) =
      .ok (lcd.appenders.map fun _ => none) :=
    mapM_written (decodeAppender_encodeAppender asBool) lcd.appenders
  have hread' : (lcd.loggers.map encodeLogger).mapM decodeLogger = .ok (lcd.loggers.map id) :=
    mapM_written decodeLogger_encodeLogger lcd.loggers
  have hempty : (lcd.appenders.map fun _ => none).filterMap id =
      ([] : List (LogAppenderDefine String)) := by
    rw [List.filterMap_map, List.filterMap_eq_nil_iff]
    exact fun _ _ => rfl
  rw [decode, happenders, hloggers]
  show (do
    let appenders ← (lcd.appenders.map encodeAppender).mapM (decodeAppender asBool)
    let loggers ← (lcd.loggers.map encodeLogger).mapM decodeLogger
    pure ⟨loggers, appenders.filterMap id⟩ : Except Exception (LogConfigerDefine String)) = _
  rw [hread, hread', List.map_id]
  exact congrArg (fun l => Except.ok (⟨lcd.loggers, l⟩ : LogConfigerDefine String)) hempty

/-- A console appender, with the default formatter. -/
def console : LogConfigerDefine String := ⟨[], [{ LogAppenderDefine.new with name := "console" }]⟩

/-- A logger, and the text that is emitted of it. -/
def systemLogger : LogConfigerDefine String := ⟨[⟨"system", ["console"], .DEBUG⟩], []⟩

def systemText : String :=
  "loggers:\n  - name: system\n    level: DEBUG\n    appender-ref:\n      - console"

end LimWebserver.LogInitializer
