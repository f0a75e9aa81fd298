import LimWebserver.Net.Http.Message
import LimWebserver.Net.Http.Table

namespace LimWebserver.Http

/-!
# Http — what the two `execute` do to the bytes of their caller

The transitions of the generated `httpclient_parser_execute` are a parameter, `ClientMachine`. It
returns an `int`, which is -1 where one of its checks fails, and `HttpResponseParser::execute` takes
it for a `size_t`.

* `HttpResponseParser`, `act`, `run` — the registers, one action, the loop over the bytes;
* `httpclient_parser_execute`, `CountOrError` — the checks behind the loop, and what is returned;
* `memmove`, `executeIn`, `execute` — the member functions, in the buffer of their caller;
* `HttpRequestParser.Law`, `HttpResponseParser.Law` — what they are to do;
* `run_spec` — the registers stay below `len`; `execute_iff` — exactly the calls that do it.
-/

/-! ### The parser of responses -/

/-- The actions of `httpclient_parser.rl` that set something which is read. -/
inductive ClientAction
  | mark
  | startField
  | writeField
  | startValue
  | writeValue
  | reasonPhrase
  | statusCode
  | httpVersion
  | chunkSize
  | done
  deriving DecidableEq, Repr

/-- The generated table. A transition to `error` has no actions and takes no byte. -/
structure ClientMachine where
  start : Nat
  error : Nat
  next : Nat → UInt8 → Nat × List ClientAction

/-- `HttpResponseParser`, with the fields of its `httpclient_parser` and of its `HttpResponse` that
    the actions set. -/
structure HttpResponseParser where
  cs : Nat
  mark : Nat
  field_start : Nat
  field_len : Nat
  m_status : Int
  m_version : UInt8
  m_reason : Bytes
  m_headers : MapType
  m_error : Nat
  deriving DecidableEq, Repr

/-- `isspace` -/
def isspace (b : UInt8) : Bool := b = 32 ∨ 9 ≤ b ∧ b ≤ 13

/-- `atoi(at)`, which is `strtol(at, NULL, 10)` as an `int`. -/
def atoi (text : Bytes) : Int :=
  let text := text.dropWhile isspace
  let row := if text.head? = some 45 ∨ text.head? = some 43 then text.tail else text
  let n : Int := (number (row.takeWhile isDigit)).getD 0
  let v := if text.head? = some 45 then -n else n
  (max (-2 ^ 63) (min v (2 ^ 63 - 1))).bmod (2 ^ 32)

namespace HttpResponseParser

/-- The constructor. -/
def new (M : ClientMachine) : HttpResponseParser where
  cs := M.start
  mark := 0
  field_start := 0
  field_len := 0
  m_status := 200
  m_version := 0x11
  m_reason := []
  m_headers := []
  m_error := 0

def setError (s : HttpResponseParser) (v : Nat) : HttpResponseParser := { s with m_error := v }

/-! ### The callbacks

`mem` is the memory from the first byte of the token on. -/

variable (s : HttpResponseParser) (mem : Bytes) (length : Nat)

def onResponseReason : HttpResponseParser := { s with m_reason := mem.take length }

def onResponseStatus : HttpResponseParser := { s with m_status := atoi mem }

def onResponseVersion : HttpResponseParser :=
  if strncmp length mem (chars "HTTP/1.1") then { s with m_version := 0x11 }
  else if strncmp length mem (chars "HTTP/1.0") then { s with m_version := 0x10 }
  else s.setError 1001

def onResponseHttpField (flen : Nat) (value : Bytes) (vlen : Nat) : HttpResponseParser :=
  if flen = 0 then s
  else { s with m_headers := MapType.set s.m_headers (mem.take flen) (value.take vlen) }

/-! ### The loop -/

/-- One action at the byte `p` of the buffer `mem`; no register is behind this byte. -/
def act (mem : Bytes) (p : Nat) (s : HttpResponseParser) : ClientAction → HttpResponseParser
  | .mark => { s with mark := p }
  | .startField => { s with field_start := p }
  | .writeField => { s with field_len := p - s.field_start }
  | .startValue => { s with mark := p }
  | .writeValue =>
    s.onResponseHttpField (mem.drop s.field_start) s.field_len (mem.drop s.mark) (p - s.mark)
  | .reasonPhrase => s.onResponseReason (mem.drop s.mark) (p - s.mark)
  | .statusCode => s.onResponseStatus (mem.drop s.mark)
  | .httpVersion => s.onResponseVersion (mem.drop s.mark) (p - s.mark)
  -- `on_response_chunk` and `on_response_last_chunk` are empty, and so is what `done` calls
  | .chunkSize => s
  | .done => s

/-- The actions of one transition. -/
def acts (mem : Bytes) (p : Nat) (as : List ClientAction) (s : HttpResponseParser) :
    HttpResponseParser :=
  as.foldl (act mem p) s

/-- The loop over the bytes from `p` on, up to an error, `fbreak` or the end. -/
def run (M : ClientMachine) (mem : Bytes) :
    Nat → Bytes → HttpResponseParser → Nat × HttpResponseParser
  | p, [], s => (p, s)
  | p, b :: bytes, s =>
    if (M.next s.cs b).1 = M.error then (p, { s with cs := M.error })
    else
      let s' := { acts mem p (M.next s.cs b).2 s with cs := (M.next s.cs b).1 }
      -- `fbreak` steps over the byte before it leaves the loop
      if .done ∈ (M.next s.cs b).2 then (p + 1, s') else run M mem (p + 1) bytes s'

/-- What is set to zero at the beginning of a call. -/
def reset : HttpResponseParser := { s with mark := 0, field_len := 0, field_start := 0 }

/-- `httpclient_parser_init` -/
def init (M : ClientMachine) : HttpResponseParser := { s.reset with cs := M.start }

def hasError (M : ClientMachine) : Bool := s.m_error ≠ 0 || s.cs = M.error

end HttpResponseParser

/-! ### The generated functions -/

/-- `http_parser_execute(parser, data, len, 0)` -/
def http_parser_execute (M : Machine) (s : HttpRequestParser) (data : Bytes) (len : Nat) :
    Option (Nat × HttpRequestParser) :=
  if len = 0 then some (0, s) else run M data 0 (data.take len) s.reset

/-- `httpclient_parser_execute(parser, data, len, 0)`, with the number of bytes as an `int`. -/
def httpclient_parser_execute (M : ClientMachine) (s : HttpResponseParser) (data : Bytes)
    (len : Nat) : Int × HttpResponseParser :=
  let r := HttpResponseParser.run M data 0 (data.take len) s.reset
  if r.2.mark < len ∧ r.2.field_len ≤ len ∧ r.2.field_start < len then
    ((r.1 : Int).bmod (2 ^ 32), r.2)
  else (-1, r.2)

/-! ### The member functions -/

/-- `memmove(data, data + offset, n)`; none if one of the bytes is not among the first `len`. -/
def memmove (data : Bytes) (len offset n : UInt64) : Option Bytes :=
  if n = 0 ∨ offset.toNat + n.toNat ≤ len.toNat then
    some ((data.drop offset.toNat).take n.toNat ++ data.drop n.toNat)
  else none

namespace HttpRequestParser

/-- `execute(data, len)`, with the arithmetic of `size_t`. -/
def executeIn (M : Machine) (s : HttpRequestParser) (data : Bytes) (len : UInt64) :
    Option (UInt64 × Bytes × HttpRequestParser) := do
  let (nread, s) ← http_parser_execute M s data len.toNat
  let offset := UInt64.ofNat nread
  let data ← memmove data len offset (len - offset)
  return (offset, data, s)

end HttpRequestParser

namespace HttpResponseParser

/-- The parser that a call begins with. -/
def begun (s : HttpResponseParser) (M : ClientMachine) (chunck : Bool) : HttpResponseParser :=
  if chunck then s.init M else s

/-- `execute(data, len, chunck)` -/
def execute (M : ClientMachine) (s : HttpResponseParser) (data : Bytes) (len : UInt64)
    (chunck : Bool) : Option (UInt64 × Bytes × HttpResponseParser) := do
  let (ret, s) := httpclient_parser_execute M (s.begun M chunck) data len.toNat
  let offset := UInt64.ofInt ret
  let data ← memmove data len offset (len - offset)
  return (offset, data, s)

end HttpResponseParser

/-! ### What they are to do -/

/-- The bytes behind `offset` come to the front of the buffer, and those behind the buffer stay. -/
structure Moved (data data' : Bytes) (len offset : Nat) : Prop where
  offset_le : offset ≤ len
  front : data'.take (len - offset) = (data.take len).drop offset
  behind : data'.drop len = data.drop len

/-- A byte is refused before the parser is done. -/
def refused {α : Type} [DecidableEq α] (next : Nat → UInt8 → Nat × List α) (error : Nat)
    (done : α) : Nat → Bytes → Bool
  | _, [] => false
  | cs, b :: bytes =>
    if (next cs b).1 = error then true
    else if done ∈ (next cs b).2 then false
    else refused next error done (next cs b).1 bytes

/-- Whenever `http_parser_execute` returns, so does `execute`, with its number of bytes. -/
def HttpRequestParser.Law (M : Machine) (s : HttpRequestParser) (data : Bytes) (len : UInt64) :
    Prop :=
  ∀ nread t, http_parser_execute M s data len.toNat = some (nread, t) → ∃ offset data',
    s.executeIn M data len = some (offset, data', t) ∧ offset.toNat = nread ∧
      Moved data data' len.toNat nread ∧
        (refused M.next M.error .done s.cs (data.take len.toNat) → t.hasError M)

/-- `execute` returns, and there is an error where a byte is refused or -1 is returned to it. -/
def HttpResponseParser.Law (M : ClientMachine) (s : HttpResponseParser) (data : Bytes)
    (len : UInt64) (chunck : Bool) : Prop :=
  ∃ offset data' t, s.execute M data len chunck = some (offset, data', t) ∧
    Moved data data' len.toNat offset.toNat ∧
      (refused M.next M.error .done (s.begun M chunck).cs (data.take len.toNat) ∨
        (httpclient_parser_execute M (s.begun M chunck) data len.toNat).1 = -1 → t.hasError M)

/-- What is taken for granted: a number of bytes, or -1 where a register is not below `len`. -/
def CountOrError (M : ClientMachine) (s : HttpResponseParser) (data : Bytes) (len : Nat) : Prop :=
  (∃ nread ≤ len, (httpclient_parser_execute M s data len).1 = nread) ∨
    ((httpclient_parser_execute M s data len).1 = -1 ∧
      (len ≤ (httpclient_parser_execute M s data len).2.mark ∨
        len < (httpclient_parser_execute M s data len).2.field_len ∨
          len ≤ (httpclient_parser_execute M s data len).2.field_start))

/-! ### Moving the rest -/

variable {data : Bytes} {len offset : UInt64}

theorem memmove_eq (h : offset ≤ len) : memmove data len offset (len - offset) =
    some ((data.drop offset.toNat).take (len.toNat - offset.toNat) ++
      data.drop (len.toNat - offset.toNat)) := by
  have hsub : (len - offset).toNat = len.toNat - offset.toNat := UInt64.toNat_sub_of_le _ _ h
  have hle : offset.toNat ≤ len.toNat := UInt64.le_iff_toNat_le.mp h
  rw [memmove, if_pos (.inr (by omega)), hsub]

/-- The rest of the buffer is moved if it is one. -/
theorem memmove_moved (hlen : len.toNat ≤ data.length) (h : offset ≤ len) :
    ∃ data', memmove data len offset (len - offset) = some data' ∧
      Moved data data' len.toNat offset.toNat := by
  have hle : offset.toNat ≤ len.toNat := UInt64.le_iff_toNat_le.mp h
  have hcount : ((data.drop offset.toNat).take (len.toNat - offset.toNat)).length =
      len.toNat - offset.toNat := by
    rw [List.length_take, List.length_drop]
    omega
  refine ⟨_, memmove_eq h, hle, ?_, ?_⟩
  · rw [List.take_left' hcount, List.drop_take]
  · rw [List.drop_append, hcount, List.drop_of_length_le (by omega), List.nil_append,
      List.drop_drop]
    congr 1
    omega

/-! ### The parser of requests -/

section Request

open HttpRequestParser

variable {M : Machine} {mem bytes : Bytes} {p p' n : Nat} {s s' : HttpRequestParser}

/-- The loop takes bytes from the front, and stays in the error that a refused byte leads to. -/
theorem HttpRequestParser.run_spec (h : run M mem p bytes s = some (p', s')) :
    p' ≤ p + bytes.length ∧ (refused M.next M.error .done s.cs bytes → s'.cs = M.error) := by
  induction bytes generalizing p s with
  | nil =>
    obtain ⟨rfl, rfl⟩ := Prod.mk.inj (Option.some.inj h)
    exact ⟨le_rfl, nofun⟩
  | cons b bytes ih =>
    rw [List.length_cons, refused]
    rcases run_cons h with ⟨-, rfl, rfl⟩ | ⟨hne, t, -, ⟨hfin, rfl, rfl⟩ | ⟨hfin, hrun⟩⟩
    · exact ⟨by omega, fun _ => rfl⟩
    · rw [if_neg hne, if_pos ((M.done_final _ _).mpr hfin)]
      exact ⟨by omega, nofun⟩
    · obtain ⟨hp, hrefused⟩ := ih hrun
      rw [if_neg hne, if_neg (mt (M.done_final _ _).mp (not_le.mpr hfin))]
      exact ⟨by omega, hrefused⟩

theorem http_parser_execute_spec (h : http_parser_execute M s data n = some (p', s')) :
    p' ≤ n ∧ (refused M.next M.error .done s.cs (data.take n) → s'.cs = M.error) := by
  rw [http_parser_execute] at h
  split at h
  · next hn =>
    obtain ⟨rfl, rfl⟩ := Prod.mk.inj (Option.some.inj h)
    rw [hn]
    exact ⟨le_rfl, nofun⟩
  · obtain ⟨hp, hrefused⟩ := run_spec h
    rw [List.length_take] at hp
    exact ⟨by omega, hrefused⟩

theorem http_parser_execute_le
    (h : http_parser_execute M s data len.toNat = some (p', s')) :
    (UInt64.ofNat p').toNat = p' ∧ UInt64.ofNat p' ≤ len := by
  have hle := (http_parser_execute_spec h).1
  have hofNat : (UInt64.ofNat p').toNat = p' :=
    UInt64.toNat_ofNat_of_lt' (Nat.lt_of_le_of_lt hle len.toNat_lt)
  exact ⟨hofNat, UInt64.le_iff_toNat_le.mpr (by rwa [hofNat])⟩

/-- The other model of `execute`, which does not say where the bytes are, says the same. -/
theorem executeIn_eq (M : Machine) (s : HttpRequestParser) (data : Bytes) (len : UInt64) :
    s.executeIn M data len =
      (s.execute M data len.toNat).map fun r => (UInt64.ofNat r.1, r.2.1, r.2.2) := by
  have hexecute : s.execute M data len.toNat =
      (http_parser_execute M s data len.toNat).map fun r =>
        (r.1, (data.drop r.1).take (len.toNat - r.1) ++ data.drop (len.toNat - r.1), r.2) := by
    rw [HttpRequestParser.execute, http_parser_execute]
    split
    · next h => rw [h]; rfl
    · rfl
  rw [hexecute, executeIn]
  cases h : http_parser_execute M s data len.toNat with
  | none => rfl
  | some r =>
    obtain ⟨hofNat, hle⟩ := http_parser_execute_le h
    simp [memmove_eq hle, hofNat]

/-- **Requests.** No call goes wrong. -/
theorem HttpRequestParser.law (M : Machine) (s : HttpRequestParser)
    (hlen : len.toNat ≤ data.length) : s.Law M data len := by
  intro nread t h
  obtain ⟨hofNat, hle⟩ := http_parser_execute_le h
  obtain ⟨data', hmove, hmoved⟩ := memmove_moved hlen hle
  rw [hofNat] at hmoved
  refine ⟨UInt64.ofNat nread, data', ?_, hofNat, hmoved, fun hrefused => ?_⟩
  · simp [executeIn, h, hmove]
  · rw [HttpRequestParser.hasError, (http_parser_execute_spec h).2 hrefused, decide_eq_true rfl,
      Bool.or_true]

end Request

/-! ### The parser of responses -/

namespace HttpResponseParser

variable {M : ClientMachine} {mem bytes : Bytes} {p n : Nat} {a : ClientAction}
  {as : List ClientAction} {s : HttpResponseParser}

/-- The registers that are checked. -/
structure Below (n : Nat) (s : HttpResponseParser) : Prop where
  mark_lt : s.mark < n
  field_start_lt : s.field_start < n
  field_len_lt : s.field_len < n

theorem below_reset (hn : 0 < n) (s : HttpResponseParser) : s.reset.Below n := ⟨hn, hn, hn⟩

/-- One action sets a register to its byte at most. -/
theorem act_below (hp : p < n) (h : s.Below n) : (act mem p s a).Below n := by
  obtain ⟨hmark, hstart, hlen⟩ := h
  cases a with
  | mark => exact ⟨hp, hstart, hlen⟩
  | startField => exact ⟨hmark, hp, hlen⟩
  | writeField => exact ⟨hmark, hstart, Nat.lt_of_le_of_lt (Nat.sub_le _ _) hp⟩
  | startValue => exact ⟨hp, hstart, hlen⟩
  | writeValue =>
    rw [act, onResponseHttpField]
    split <;> exact ⟨hmark, hstart, hlen⟩
  | reasonPhrase => exact ⟨hmark, hstart, hlen⟩
  | statusCode => exact ⟨hmark, hstart, hlen⟩
  | httpVersion =>
    rw [act, onResponseVersion]
    split_ifs <;> exact ⟨hmark, hstart, hlen⟩
  | chunkSize => exact ⟨hmark, hstart, hlen⟩
  | done => exact ⟨hmark, hstart, hlen⟩

theorem acts_below (hp : p < n) (h : s.Below n) : (acts mem p as s).Below n := by
  induction as generalizing s with
  | nil => exact h
  | cons a as ih => exact ih (act_below hp h)

/-- The loop takes bytes from the front, its registers stay below the end, and it stays in the error
    that a refused byte leads to. -/
theorem run_spec (hn : p + bytes.length ≤ n) (h : s.Below n) :
    (run M mem p bytes s).1 ≤ n ∧ (run M mem p bytes s).2.Below n ∧
      (refused M.next M.error .done s.cs bytes → (run M mem p bytes s).2.cs = M.error) := by
  induction bytes generalizing p s with
  | nil => exact ⟨hn, h, nofun⟩
  | cons b bytes ih =>
    rw [List.length_cons] at hn
    have hacts : (acts mem p (M.next s.cs b).2 s).Below n := acts_below (by omega : p < n) h
    rw [run, refused]
    split_ifs with herr hdone
    · exact ⟨by omega, ⟨h.mark_lt, h.field_start_lt, h.field_len_lt⟩, fun _ => rfl⟩
    · have hp : p + 1 ≤ n := by omega
      exact ⟨hp, ⟨hacts.mark_lt, hacts.field_start_lt, hacts.field_len_lt⟩, nofun⟩
    · exact ih (by omega) ⟨hacts.mark_lt, hacts.field_start_lt, hacts.field_len_lt⟩

/-- The loop of one call. -/
theorem run_reset (M : ClientMachine) (hn : 0 < n) (s : HttpResponseParser) (data : Bytes) :
    (run M data 0 (data.take n) s.reset).1 ≤ n ∧
      (run M data 0 (data.take n) s.reset).2.Below n ∧
        (refused M.next M.error .done s.cs (data.take n) →
          (run M data 0 (data.take n) s.reset).2.cs = M.error) := by
  apply run_spec _ (below_reset hn s)
  rw [List.length_take]
  omega

/-- With a byte in the buffer, all checks are passed. -/
theorem httpclient_parser_execute_eq (hn : 0 < n) (s : HttpResponseParser) (data : Bytes) :
    httpclient_parser_execute M s data n =
      (((run M data 0 (data.take n) s.reset).1 : Int).bmod (2 ^ 32),
        (run M data 0 (data.take n) s.reset).2) := by
  obtain ⟨-, hbelow, -⟩ := run_reset M hn s data
  rw [httpclient_parser_execute, if_pos ⟨hbelow.mark_lt, hbelow.field_len_lt.le,
    hbelow.field_start_lt⟩]

/-- Without one, the first check fails. -/
theorem httpclient_parser_execute_zero (s : HttpResponseParser) (data : Bytes) :
    httpclient_parser_execute M s data 0 = (-1, s.reset) := rfl

/-- What is taken for granted is so for every number of bytes that fits into an `int`. -/
theorem countOrError_of_lt (hn : n < 2 ^ 31) (s : HttpResponseParser) (data : Bytes) :
    CountOrError M s data n := by
  rcases Nat.eq_zero_or_pos n with rfl | hpos
  · exact .inr ⟨rfl, .inl (Nat.zero_le _)⟩
  · obtain ⟨hle, -⟩ := run_reset M hpos s data
    refine .inl ⟨_, hle, ?_⟩
    rw [httpclient_parser_execute_eq hpos]
    dsimp only
    rw [Int.bmod_eq_of_le] <;> omega

/-- With a byte in the buffer, what is returned is a number of bytes. -/
theorem httpclient_parser_execute_spec (hn : 0 < n) (hret : CountOrError M s data n) :
    ∃ (nread : Nat) (t : HttpResponseParser),
      httpclient_parser_execute M s data n = ((nread : Int), t) ∧ nread ≤ n ∧
        (refused M.next M.error .done s.cs (data.take n) → t.cs = M.error) := by
  obtain ⟨-, hbelow, hrefused⟩ := run_reset M hn s data
  rw [CountOrError, httpclient_parser_execute_eq hn] at hret
  dsimp only at hret
  rw [httpclient_parser_execute_eq hn]
  rcases hret with ⟨nread, hle, h⟩ | ⟨-, hmark | hlen | hstart⟩
  · exact ⟨nread, _, by rw [h], hle, hrefused⟩
  · exact absurd hbelow.mark_lt (not_lt.mpr hmark)
  · exact absurd hbelow.field_len_lt (not_lt.mpr hlen.le)
  · exact absurd hbelow.field_start_lt (not_lt.mpr hstart)

theorem execute_eq {ret : Int} {t : HttpResponseParser} {chunck : Bool}
    (h : httpclient_parser_execute M (s.begun M chunck) data len.toNat = (ret, t)) :
    s.execute M data len chunck =
      (memmove data len (.ofInt ret) (len - .ofInt ret)).map fun data => (.ofInt ret, data, t) := by
  rw [execute, h]
  show (memmove data len _ _).bind _ = _
  cases memmove data len (.ofInt ret) (len - .ofInt ret) <;> rfl

/-- **Responses.** A call with bytes does not go wrong. -/
theorem law_of_ne_zero {chunck : Bool} (hlen : len.toNat ≤ data.length) (h : len ≠ 0)
    (hret : CountOrError M (s.begun M chunck) data len.toNat) : s.Law M data len chunck := by
  have hn : 0 < len.toNat := Nat.pos_of_ne_zero fun h0 => h (UInt64.toNat_inj.mp h0)
  obtain ⟨nread, t, hexecute, hle, hrefused⟩ := httpclient_parser_execute_spec hn hret
  have hoffset : (UInt64.ofNat nread).toNat = nread :=
    UInt64.toNat_ofNat_of_lt' (Nat.lt_of_le_of_lt hle len.toNat_lt)
  have hsize : UInt64.ofInt nread = UInt64.ofNat nread := by
    rw [UInt64.ofInt, Int.emod_eq_of_lt (by omega) (by have := len.toNat_lt; omega)]
    rfl
  obtain ⟨data', hmove, hmoved⟩ := memmove_moved hlen
    (UInt64.le_iff_toNat_le.mpr (by rwa [hoffset]) : UInt64.ofNat nread ≤ len)
  refine ⟨.ofNat nread, data', t, ?_, hmoved, ?_⟩
  · rw [execute_eq hexecute, hsize, hmove]
    rfl
  · rintro (h | h)
    · rw [hasError, hrefused h, decide_eq_true rfl, Bool.or_true]
    · rw [hexecute] at h
      exact absurd h (by simp)

/-- Without bytes, -1 is taken for the offset. -/
theorem not_law_zero (s : HttpResponseParser) (data : Bytes) (chunck : Bool) :
    ¬s.Law M data 0 chunck := by
  rintro ⟨offset, data', t, h, -⟩
  have hoffset : memmove data 0 (.ofInt (-1)) (0 - .ofInt (-1)) = none := by
    rw [memmove, if_neg (by decide)]
  rw [execute_eq (httpclient_parser_execute_zero _ _), hoffset] at h
  cases h

end HttpResponseParser

/-! ### Both parsers -/

/-- **The calls that do what they are to do.** -/
theorem execute_iff (N : Machine) (M : ClientMachine) (q : HttpRequestParser)
    (s : HttpResponseParser) (data : Bytes) (len : UInt64) (chunck : Bool)
    (hlen : len.toNat ≤ data.length) (hret : CountOrError M (s.begun M chunck) data len.toNat) :
    q.Law N data len ∧ s.Law M data len chunck ↔ len ≠ 0 := by
  constructor
  · rintro ⟨-, h⟩ rfl
    exact s.not_law_zero data chunck h
  · intro h
    exact ⟨HttpRequestParser.law N q hlen, HttpResponseParser.law_of_ne_zero hlen h hret⟩

namespace Table

/-- The states of `httpclient_parser.cpp` that the size of a chunk goes through; every byte that it
    does not have there is an error. -/
def clientNext (cs : Nat) (b : UInt8) : Nat × List ClientAction :=
  let xdigit := (48 ≤ b ∧ b ≤ 57) ∨ (65 ≤ b ∧ b ≤ 70) ∨ (97 ≤ b ∧ b ≤ 102)
  match cs with
  | 1 => if xdigit then (2, [.mark]) else (0, [])
  | 2 =>
    if b = 10 then (120, [.chunkSize, .done])
    else if b = 13 then (3, [.chunkSize])
    else if xdigit then (2, []) else (0, [])
  | 3 => if b = 10 then (120, [.done]) else (0, [])
  | _ => (0, [])

def clientMachine : ClientMachine where
  start := 1
  error := 0
  next := clientNext

end Table

/-- The line in front of the last chunk. -/
theorem execute_iff_chunk :
    HttpRequestParser.Law Table.machine (.new Table.machine 0) (chars "0\r\n") 3 ∧
      HttpResponseParser.Law Table.clientMachine (.new Table.clientMachine) (chars "0\r\n") 3
        true :=
  (execute_iff Table.machine Table.clientMachine (.new Table.machine 0) (.new Table.clientMachine)
    (chars "0\r\n") 3 true (by decide)
    (HttpResponseParser.countOrError_of_lt (by decide) _ _)).mpr (by decide)

/-- **A buffer without bytes.** The -1 of the failed check becomes the offset. -/
theorem execute_nothing : ¬∀ (N : Machine) (M : ClientMachine) (q : HttpRequestParser)
    (s : HttpResponseParser) (data : Bytes) (len : UInt64) (chunck : Bool),
      len.toNat ≤ data.length → CountOrError M (s.begun M chunck) data len.toNat →
        q.Law N data len ∧ s.Law M data len chunck := by
  intro h
  obtain ⟨-, hlaw⟩ := h Table.machine Table.clientMachine (.new Table.machine 0)
    (.new Table.clientMachine) [] 0 true (by decide)
    (HttpResponseParser.countOrError_of_lt (by decide) _ _)
  exact HttpResponseParser.not_law_zero _ _ _ hlaw

end LimWebserver.Http
