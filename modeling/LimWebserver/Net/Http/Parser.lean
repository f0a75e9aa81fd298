import LimWebserver.Net.Http.Request

namespace LimWebserver.Http

/-!
# Http — the request parser

The transitions of the generated `http_parser_execute` are a parameter, `Machine`; what its actions
do to the registers of the parser, and the callbacks that they call, are those of
`http11_parser.rl` and `HttpParser.cpp`.

* `ParserAction`, `Machine` — the labels of the transitions and the table;
* `HttpRequestParser`, `act`, `run` — the registers, one action, the loop over the bytes;
* `execute`, `hasError`, `isFinished`, `getContentLength` — the member functions;
* `Accepts` — a complete header in one call;
* how a run splits at any byte, and what every action leaves alone.
-/

/-- The actions of `http11_parser.rl` that what `recvRequest` returns depends on. -/
inductive ParserAction
  | mark
  | startField
  | writeField
  | startValue
  | writeValue
  | requestMethod
  | requestUri
  | fragment
  | startQuery
  | queryString
  | httpVersion
  | requestPath
  | done
  deriving DecidableEq, Repr

/-- The generated table. A transition to `error` has no actions and takes no byte. -/
structure Machine where
  start : Nat
  error : Nat
  first_final : Nat
  next : Nat → UInt8 → Nat × List ParserAction
  start_lt : start < first_final
  error_lt : error < first_final
  start_ne : start ≠ error
  /-- there is no way out of `error` -/
  next_error : ∀ b, (next error b).1 = error
  /-- no header begins with a zero -/
  next_zero : (next start 0).1 = error
  /-- the final states are those that `done` leads to -/
  done_final : ∀ cs b, .done ∈ (next cs b).2 ↔ first_final ≤ (next cs b).1
  /-- a blank ends the method, and nothing else happens there -/
  method_blank : ∀ cs b, .requestMethod ∈ (next cs b).2 → b = 32 ∧ (next cs b).2 = [.requestMethod]

/-- `HttpRequestParser`, with the fields of its `http_parser` that the actions use. -/
structure HttpRequestParser where
  cs : Nat
  mark : Nat
  field_start : Nat
  field_len : Nat
  query_start : Nat
  m_data : HttpRequest
  m_error : Nat
  deriving DecidableEq, Repr

namespace HttpRequestParser

/-- The constructor; `http_parser_init` does not set `query_start`. -/
def new (M : Machine) (query_start : Nat) : HttpRequestParser where
  cs := M.start
  mark := 0
  field_start := 0
  field_len := 0
  query_start := query_start
  m_data := .new
  m_error := 0

def setError (s : HttpRequestParser) (v : Nat) : HttpRequestParser := { s with m_error := v }

/-! ### The callbacks

`mem` is the memory from the first byte of the token on. -/

variable (s : HttpRequestParser) (mem : Bytes) (length : Nat)

def onRequestMethod : HttpRequestParser :=
  match charsToHttpMethod mem with
  | .INVALID_METHOD => s.setError 1000
  | m => { s with m_data := { s.m_data with m_method := m } }

def onRequestFragment : HttpRequestParser :=
  { s with m_data := { s.m_data with m_fragment := mem.take length } }

def onRequestPath : HttpRequestParser :=
  { s with m_data := { s.m_data with m_path := mem.take length } }

def onRequestQuery : HttpRequestParser :=
  { s with m_data := { s.m_data with m_query := mem.take length } }

def onRequestVersion : HttpRequestParser :=
  if strncmp length mem (chars "HTTP/1.1") then
    { s with m_data := { s.m_data with m_version := 0x11 } }
  else if strncmp length mem (chars "HTTP/1.0") then
    { s with m_data := { s.m_data with m_version := 0x10 } }
  else s.setError 1001

def onRequestHttpField (flen : Nat) (value : Bytes) (vlen : Nat) : HttpRequestParser :=
  if flen = 0 then s
  else { s with m_data := s.m_data.setHeader (mem.take flen) (value.take vlen) }

end HttpRequestParser

open HttpRequestParser

/-! ### `http_parser_execute` -/

/-- One action at the byte `p` of the buffer `mem`. `none` is the exception of a string whose length
    `p - query_start` has wrapped around. -/
def act (mem : Bytes) (p : Nat) (s : HttpRequestParser) : ParserAction → Option HttpRequestParser
  | .mark => some { s with mark := p }
  | .startField => some { s with field_start := p }
  | .writeField => some { s with field_len := p - s.field_start }
  | .startValue => some { s with mark := p }
  | .writeValue =>
    some (s.onRequestHttpField (mem.drop s.field_start) s.field_len (mem.drop s.mark) (p - s.mark))
  | .requestMethod => some (s.onRequestMethod (mem.drop s.mark))
  -- `on_request_uri` is empty, and so is what `done` calls
  | .requestUri => some s
  | .fragment => some (s.onRequestFragment (mem.drop s.mark) (p - s.mark))
  | .startQuery => some { s with query_start := p }
  | .queryString =>
    if s.query_start ≤ p then
      some (s.onRequestQuery (mem.drop s.query_start) (p - s.query_start))
    else none
  | .httpVersion => some (s.onRequestVersion (mem.drop s.mark) (p - s.mark))
  | .requestPath => some (s.onRequestPath (mem.drop s.mark) (p - s.mark))
  | .done => some s

/-- The actions of one transition. -/
def acts (mem : Bytes) (p : Nat) : List ParserAction → HttpRequestParser → Option HttpRequestParser
  | [], s => some s
  | a :: as, s => (act mem p s a).bind (acts mem p as)

/-- The loop over the bytes from `p` on, up to an error, `fbreak` or the end. -/
def run (M : Machine) (mem : Bytes) :
    Nat → Bytes → HttpRequestParser → Option (Nat × HttpRequestParser)
  | p, [], s => some (p, s)
  | p, b :: bytes, s =>
    if (M.next s.cs b).1 = M.error then some (p, { s with cs := M.error })
    else
      (acts mem p (M.next s.cs b).2 s).bind fun s' =>
        -- `fbreak` steps over the byte before it leaves the loop
        if .done ∈ (M.next s.cs b).2 then some (p + 1, { s' with cs := (M.next s.cs b).1 })
        else run M mem (p + 1) bytes { s' with cs := (M.next s.cs b).1 }

namespace HttpRequestParser

/-- What `http_parser_execute` sets to zero at its beginning. -/
def reset (s : HttpRequestParser) : HttpRequestParser :=
  { s with mark := 0, field_len := 0, field_start := 0 }

/-- `execute(data, len)`: how many bytes are consumed, and the buffer without them. -/
def execute (M : Machine) (s : HttpRequestParser) (data : Bytes) (len : Nat) :
    Option (Nat × Bytes × HttpRequestParser) :=
  if len = 0 then some (0, data, s)
  else
    (run M data 0 (data.take len) s.reset).map fun r =>
      (r.1, (data.drop r.1).take (len - r.1) ++ data.drop (len - r.1), r.2)

def hasError (M : Machine) (s : HttpRequestParser) : Bool := s.m_error ≠ 0 || s.cs = M.error

/-- `http_parser_finish` -/
def isFinished (M : Machine) (s : HttpRequestParser) : Int :=
  if s.cs = M.error then -1 else if M.first_final ≤ s.cs then 1 else 0

def getContentLength (lexical_cast : Bytes → Option UInt64) (s : HttpRequestParser) : UInt64 :=
  s.m_data.getHeaderAs lexical_cast (chars "content-length")

end HttpRequestParser

/-- **A complete header.** A fresh parser takes `bytes`, all of it, in one call and has read `q`. -/
def Accepts (M : Machine) (bytes : Bytes) (q : HttpRequest) : Prop :=
  ∃ query_start data s,
    (HttpRequestParser.new M query_start).execute M bytes bytes.length =
        some (bytes.length, data, s) ∧
      s.hasError M = false ∧ s.isFinished M = 1 ∧ s.m_data = q

/-! ### What an action leaves alone -/

section Act

variable {M : Machine} {mem bytes : Bytes} {p p' : Nat} {a : ParserAction} {as : List ParserAction}
  {s s' : HttpRequestParser}

/-- The callbacks set other members of the request than its body, and errors stay. -/
theorem act_keeps (h : act mem p s a = some s') :
    s'.cs = s.cs ∧ s'.m_data.m_body = s.m_data.m_body ∧ (s'.m_error = 0 → s.m_error = 0) := by
  cases a
  case requestMethod =>
    simp only [act, Option.some.injEq] at h
    subst h
    unfold onRequestMethod
    split <;> simp [setError]
  case httpVersion =>
    simp only [act, Option.some.injEq] at h
    subst h
    unfold onRequestVersion
    split_ifs <;> simp [setError]
  case writeValue =>
    simp only [act, Option.some.injEq] at h
    subst h
    unfold onRequestHttpField
    split_ifs <;> simp [HttpRequest.setHeader]
  case queryString =>
    simp only [act] at h
    split_ifs at h
    simp only [Option.some.injEq] at h
    subst h
    simp [onRequestQuery]
  all_goals
    simp only [act, Option.some.injEq] at h
    subst h
    simp [onRequestFragment, onRequestPath]

theorem acts_cons (h : acts mem p (a :: as) s = some s') :
    ∃ t, act mem p s a = some t ∧ acts mem p as t = some s' :=
  Option.bind_eq_some_iff.mp h

theorem acts_keeps (h : acts mem p as s = some s') :
    s'.cs = s.cs ∧ s'.m_data.m_body = s.m_data.m_body ∧ (s'.m_error = 0 → s.m_error = 0) := by
  induction as generalizing s with
  | nil =>
    obtain rfl := Option.some.inj h
    exact ⟨rfl, rfl, id⟩
  | cons a as ih =>
    obtain ⟨t, ha, has⟩ := acts_cons h
    obtain ⟨hcs, hbody, herr⟩ := act_keeps ha
    obtain ⟨hcs', hbody', herr'⟩ := ih has
    exact ⟨hcs'.trans hcs, hbody'.trans hbody, herr ∘ herr'⟩

/-- Only `request_method` sets the method. -/
theorem act_method (ha : a ≠ .requestMethod) (h : act mem p s a = some s') :
    s'.m_data.m_method = s.m_data.m_method := by
  cases a
  case requestMethod => exact absurd rfl ha
  case httpVersion =>
    simp only [act, Option.some.injEq] at h
    subst h
    unfold onRequestVersion
    split_ifs <;> rfl
  case writeValue =>
    simp only [act, Option.some.injEq] at h
    subst h
    unfold onRequestHttpField
    split_ifs <;> rfl
  case queryString =>
    simp only [act] at h
    split_ifs at h
    obtain rfl := Option.some.inj h
    rfl
  all_goals
    obtain rfl := Option.some.inj h
    rfl

theorem acts_method (ha : .requestMethod ∉ as) (h : acts mem p as s = some s') :
    s'.m_data.m_method = s.m_data.m_method := by
  induction as generalizing s with
  | nil =>
    obtain rfl := Option.some.inj h
    rfl
  | cons a as ih =>
    obtain ⟨hne, ha⟩ := not_or.mp (mt List.mem_cons.mpr ha)
    obtain ⟨t, ht, has⟩ := acts_cons h
    exact (ih ha has).trans (act_method (Ne.symm hne) ht)

/-! ### How a run goes on -/

/-- **One byte.** It is refused, it ends the header, or the run goes on behind it. -/
theorem run_cons {b : UInt8} (h : run M mem p (b :: bytes) s = some (p', s')) :
    ((M.next s.cs b).1 = M.error ∧ p' = p ∧ s' = { s with cs := M.error }) ∨
    ((M.next s.cs b).1 ≠ M.error ∧ ∃ t, acts mem p (M.next s.cs b).2 s = some t ∧
      ((M.first_final ≤ (M.next s.cs b).1 ∧ p' = p + 1 ∧
          s' = { t with cs := (M.next s.cs b).1 }) ∨
        ((M.next s.cs b).1 < M.first_final ∧
          run M mem (p + 1) bytes { t with cs := (M.next s.cs b).1 } = some (p', s')))) := by
  unfold run at h
  split_ifs at h with herr hdone
  · simp only [Option.some.injEq, Prod.mk.injEq] at h
    exact .inl ⟨herr, h.1.symm, h.2.symm⟩
  · obtain ⟨t, ht, h⟩ := Option.bind_eq_some_iff.mp h
    simp only [Option.some.injEq, Prod.mk.injEq] at h
    exact .inr ⟨herr, t, ht, .inl ⟨(M.done_final _ _).mp hdone, h.1.symm, h.2.symm⟩⟩
  · obtain ⟨t, ht, h⟩ := Option.bind_eq_some_iff.mp h
    exact .inr ⟨herr, t, ht, .inr ⟨not_le.mp (mt (M.done_final _ _).mpr hdone), h⟩⟩

theorem run_keeps (h : run M mem p bytes s = some (p', s')) :
    s'.m_data.m_body = s.m_data.m_body ∧ (s'.m_error = 0 → s.m_error = 0) := by
  induction bytes generalizing p s with
  | nil =>
    obtain ⟨-, rfl⟩ := Prod.mk.inj (Option.some.inj h)
    exact ⟨rfl, id⟩
  | cons b bytes ih =>
    rcases run_cons h with ⟨-, -, rfl⟩ | ⟨-, t, ht, ⟨-, -, rfl⟩ | ⟨-, hrun⟩⟩
    · exact ⟨rfl, id⟩
    · exact (acts_keeps ht).2
    · exact ⟨(ih hrun).1.trans (acts_keeps ht).2.1, fun h0 => (acts_keeps ht).2.2 ((ih hrun).2 h0)⟩

/-- A run takes bytes from the front, and all of them as long as the header is not complete. -/
theorem run_position (hs : s.cs ≠ M.error) (h : run M mem p bytes s = some (p', s')) :
    p ≤ p' ∧ p' ≤ p + bytes.length ∧
      (s'.cs ≠ M.error → s'.cs < M.first_final → p' = p + bytes.length) := by
  induction bytes generalizing p s with
  | nil =>
    obtain ⟨rfl, rfl⟩ := Prod.mk.inj (Option.some.inj h)
    exact ⟨le_rfl, le_rfl, fun _ _ => rfl⟩
  | cons b bytes ih =>
    rw [List.length_cons]
    rcases run_cons h with ⟨-, rfl, rfl⟩ | ⟨hne, t, ht, ⟨hfin, rfl, rfl⟩ | ⟨-, hrun⟩⟩
    · exact ⟨le_rfl, by omega, fun h0 _ => absurd rfl h0⟩
    · exact ⟨by omega, by omega, fun _ h0 => absurd hfin (not_le.mpr h0)⟩
    · obtain ⟨hlo, hhi, hall⟩ := ih hne hrun
      exact ⟨by omega, by omega, fun h0 h1 => by have := hall h0 h1; omega⟩

/-- A run that takes all of `xs ++ ys` is one over `xs` and one over `ys`. -/
theorem run_append {xs ys : Bytes} (hs : s.cs ≠ M.error ∧ s.cs < M.first_final)
    (h : run M mem p (xs ++ ys) s = some (p', s')) (hp : p' = p + (xs ++ ys).length) :
    ∃ t, run M mem p xs s = some (p + xs.length, t) ∧
      run M mem (p + xs.length) ys t = some (p', s') ∧
        (ys ≠ [] → t.cs ≠ M.error ∧ t.cs < M.first_final) := by
  induction xs generalizing p s with
  | nil => exact ⟨s, rfl, h, fun _ => hs⟩
  | cons b xs ih =>
    rw [List.cons_append] at h
    rw [List.cons_append, List.length_cons] at hp
    rcases run_cons h with ⟨-, hp', -⟩ | ⟨hne, t, ht, ⟨hfin, hp', rfl⟩ | ⟨hlive, hrun⟩⟩
    · omega
    · -- the header is complete behind `b`, so there is nothing more
      obtain ⟨rfl, rfl⟩ : xs = [] ∧ ys = [] := by
        rw [← List.append_eq_nil_iff]
        exact List.eq_nil_of_length_eq_zero (by omega)
      refine ⟨_, h.trans (by rw [hp']; rfl), by rw [hp']; rfl, fun h0 => absurd rfl h0⟩
    · have hdone : ParserAction.done ∉ (M.next s.cs b).2 :=
        mt (M.done_final _ _).mp (not_le.mpr hlive)
      obtain ⟨t', h1, h2, h3⟩ := ih ⟨hne, hlive⟩ hrun (by omega)
      have hlen : p + 1 + xs.length = p + (b :: xs).length := by rw [List.length_cons]; omega
      rw [hlen] at h1 h2
      refine ⟨t', ?_, h2, h3⟩
      rw [run, if_neg hne, ht, Option.bind_some, if_neg hdone, h1]

/-- A run goes on where one over a part of the bytes has ended without a complete header. -/
theorem run_append_live {xs ys : Bytes} {t : HttpRequestParser}
    (h : run M mem p xs s = some (p', t)) (ht : t.cs ≠ M.error ∧ t.cs < M.first_final) :
    run M mem p (xs ++ ys) s = run M mem p' ys t := by
  induction xs generalizing p s with
  | nil =>
    obtain ⟨rfl, rfl⟩ := Prod.mk.inj (Option.some.inj h)
    rfl
  | cons b xs ih =>
    rw [List.cons_append, run]
    rcases run_cons h with ⟨-, -, rfl⟩ | ⟨hne, u, hu, ⟨hfin, rfl, rfl⟩ | ⟨hlive, hrun⟩⟩
    · exact absurd rfl ht.1
    · exact absurd hfin (not_le.mpr ht.2)
    · rw [if_neg hne, hu, Option.bind_some,
        if_neg (mt (M.done_final _ _).mp (not_le.mpr hlive))]
      exact ih hrun

/-- Behind a complete header a run looks at nothing. -/
theorem run_append_final {xs ys : Bytes} (hs : s.cs < M.first_final)
    (h : run M mem p xs s = some (p', s')) (hs' : M.first_final ≤ s'.cs) :
    run M mem p (xs ++ ys) s = some (p', s') := by
  induction xs generalizing p s with
  | nil =>
    obtain ⟨-, rfl⟩ := Prod.mk.inj (Option.some.inj h)
    omega
  | cons b xs ih =>
    rw [List.cons_append, run]
    rcases run_cons h with ⟨-, -, rfl⟩ | ⟨hne, t, ht, ⟨hfin, rfl, rfl⟩ | ⟨hlive, hrun⟩⟩
    · exact absurd hs' (not_le.mpr M.error_lt)
    · rw [if_neg hne, ht, Option.bind_some, if_pos ((M.done_final _ _).mpr hfin)]
    · rw [if_neg hne, ht, Option.bind_some,
        if_neg (mt (M.done_final _ _).mp (not_le.mpr hlive))]
      exact ih hlive hrun

end Act

end LimWebserver.Http
