import LimWebserver.Net.Http.Parser

namespace LimWebserver.Http

open HttpRequestParser

/-!
# Http — sessions

`HttpSession::recvRequest` over a socket given by what its successive `resv` will return.

* `Session`, `write` — the connection, and bytes written into a buffer;
* `recvHeader`, `recvBody` — the loop up to a complete header, and what follows it;
* `recvRequest`, `recvRequests` — one call and successive calls on one session;
* `accepts_run`, `recvHeader_continue`, `recvHeader_complete` — what one `execute` in the loop does
  when it is given bytes from the beginning of the buffer;
* `recvBody_held`, `recvBody_resv` — the body when the buffer holds it, and when it does not.
-/

/-- An `HttpSession`: whether it has been closed, and the bytes that each `resv` will return; an
    empty result stands for a return value `≤ 0`, and behind the last result the peer has closed. -/
structure Session where
  closed : Bool
  results : List Bytes
  deriving DecidableEq, Repr

/-- The memory that a call gets without initializing it. -/
structure Uninit (buff_size : Nat) where
  /-- `new char[buff_size]` -/
  buffer : Bytes
  buffer_length : buffer.length = buff_size
  /-- the `query_start` of the new parser -/
  query_start : Nat

/-- The end of a call of `recvRequest`. -/
inductive Result
  | request (q : HttpRequest)
  | nullptr
  | exception
  deriving DecidableEq, Repr

/-- `bytes` written to `data + at`. -/
def write (data : Bytes) (offset : Nat) (bytes : Bytes) : Bytes :=
  data.take offset ++ bytes ++ data.drop (offset + bytes.length)

/-- How the loop of `recvRequest` ends. -/
inductive Header
  | complete (data : Bytes) (offset : Nat) (parser : HttpRequestParser)
  | nullptr
  | exception
  deriving DecidableEq, Repr

/-- The loop of `recvRequest`, and the results it has not taken. `none`: a result longer than the
    buffer it is received in, which no `resv` returns. -/
def recvHeader (M : Machine) (buff_size : Nat) :
    Bytes → Nat → HttpRequestParser → List Bytes → Option (Header × List Bytes)
  | _, _, _, [] => some (.nullptr, [])
  | data, offset, parser, r :: results =>
    if buff_size - offset < r.length then none
    else if r = [] then some (.nullptr, results)
    else
      let len := r.length + offset
      match parser.execute M (write data offset r) len with
      | none => some (.exception, results)
      | some (nparse, data, parser) =>
        if parser.hasError M then some (.nullptr, results)
        -- nothing has been consumed of a full buffer, so no more can be received
        else if len - nparse = buff_size then some (.nullptr, results)
        else if parser.isFinished M ≠ 0 then
          some (.complete data (len - nparse) parser, results)
        else recvHeader M buff_size data (len - nparse) parser results

/-- `(int64_t)parser->getContentLength()` -/
def contentLength (lexical_cast : Bytes → Option UInt64) (q : HttpRequest) : Int :=
  (q.getHeaderAs lexical_cast (chars "content-length")).toInt64.toInt

/-- `recvRequest` behind its loop: the rest of the body is received by one `resv`. -/
def recvBody (lexical_cast : Bytes → Option UInt64) (data : Bytes) (offset : Nat)
    (q : HttpRequest) (results : List Bytes) : Option (Result × List Bytes) :=
  let length := (contentLength lexical_cast q).toNat
  if length = 0 then some (.request q.init, results)
  else
    let body := write (List.replicate length 0) 0 (data.take (min offset length))
    if length ≤ offset then some (.request (q.setBody body).init, results)
    else
      match results with
      | [] => some (.nullptr, [])
      | r :: results =>
        -- one `resv`: a short result leaves zeros at the end of the body
        if length - offset < r.length then none
        else if r = [] then some (.nullptr, results)
        else some (.request (q.setBody (write body offset r)).init, results)

section

variable (M : Machine) (lexical_cast : Bytes → Option UInt64) {buff_size : Nat}

/-- `HttpSession::recvRequest`; it closes the socket where it returns `nullptr`. -/
def recvRequest (u : Uninit buff_size) (session : Session) : Option (Result × Session) :=
  if session.closed then some (.nullptr, session)
  else
    (recvHeader M buff_size u.buffer 0 (.new M u.query_start) session.results).bind fun
      | (.nullptr, results) => some (.nullptr, ⟨true, results⟩)
      | (.exception, results) => some (.exception, ⟨false, results⟩)
      | (.complete data offset parser, results) =>
        (recvBody lexical_cast data offset parser.m_data results).map fun
          | (.nullptr, results) => (.nullptr, ⟨true, results⟩)
          | (result, results) => (result, ⟨false, results⟩)

/-- As many calls as there are elements of `us`. -/
def recvRequests : List (Uninit buff_size) → Session → Option (List Result × Session)
  | [], session => some ([], session)
  | u :: us, session =>
    (recvRequest M lexical_cast u session).bind fun r =>
      (recvRequests us r.2).map fun r' => (r.1 :: r'.1, r'.2)

end

/-! ### One `execute` in the loop -/

section Header

variable {M : Machine} {buff_size : Nat} {data x y r bytes : Bytes} {results : List Bytes}
  {s t : HttpRequestParser} {q : HttpRequest}

theorem accepts_run (h : Accepts M bytes q) :
    bytes ≠ [] ∧ ∃ query_start s,
      run M bytes 0 bytes (.new M query_start) = some (bytes.length, s) ∧
        M.first_final ≤ s.cs ∧ s.m_error = 0 ∧ s.m_data = q := by
  obtain ⟨query_start, data, s, hrun, herr, hfin, hq⟩ := h
  have hcs : M.first_final ≤ s.cs := by
    unfold isFinished at hfin
    split_ifs at hfin with h1 h2
    · exact h2
    · exact absurd hfin (by decide)
  have hm : s.m_error = 0 := by
    simp only [hasError, ne_eq, decide_not, Bool.or_eq_false_iff, Bool.not_eq_false',
      decide_eq_true_eq] at herr
    exact herr.1
  unfold execute at hrun
  split_ifs at hrun with h0
  · -- nothing is executed, and the parser is still at its start
    simp only [Option.some.injEq, Prod.mk.injEq] at hrun
    exact absurd hcs (not_le.mpr (hrun.2.2 ▸ M.start_lt))
  · rw [List.take_length] at hrun
    obtain ⟨⟨p, s'⟩, hs, hr⟩ := Option.map_eq_some_iff.mp hrun
    simp only [Prod.mk.injEq] at hr
    obtain ⟨rfl, -, rfl⟩ := hr
    exact ⟨mt (fun h => by rw [h]; rfl) h0, query_start, s', hs, hcs, hm, hq⟩

theorem take_write_zero : (write data 0 r).take r.length = r := by
  simp [write]

/-- `execute` of bytes at the beginning of the buffer leaves what it does not take there. -/
theorem execute_write {p : Nat} (hr : r ≠ [])
    (h : run M (write data 0 r) 0 r s.reset = some (p, t)) :
    ∃ data', s.execute M (write data 0 r) r.length = some (p, data', t) ∧
      data'.take (r.length - p) = r.drop p := by
  have h0 : r.length ≠ 0 := mt List.eq_nil_of_length_eq_zero hr
  have hrest : ((write data 0 r).drop p).take (r.length - p) = r.drop p := by
    rw [← List.drop_take, take_write_zero]
  refine ⟨r.drop p ++ (write data 0 r).drop (r.length - p), ?_, ?_⟩
  · rw [execute, if_neg h0, take_write_zero, h, Option.map_some, hrest]
  · rw [← List.length_drop, List.take_left]

theorem hasError_eq_false (herr : t.m_error = 0) (hcs : t.cs ≠ M.error) : t.hasError M = false := by
  simp [hasError, herr, hcs]

/-- All of a result is taken, and the header is not complete. -/
theorem recvHeader_continue (hr : r ≠ []) (hsize : r.length ≤ buff_size)
    (h : run M (write data 0 r) 0 r s.reset = some (r.length, t)) (herr : t.m_error = 0)
    (hlive : t.cs ≠ M.error ∧ t.cs < M.first_final) :
    ∃ data', recvHeader M buff_size data 0 s (r :: results) =
      recvHeader M buff_size data' 0 t results := by
  have hpos : 0 < r.length := List.length_pos_iff.mpr hr
  have hsize0 : ¬ (0 = buff_size) := by omega
  have hfin : t.isFinished M = 0 := by
    rw [isFinished, if_neg hlive.1, if_neg (not_le.mpr hlive.2)]
  obtain ⟨data', hex, -⟩ := execute_write hr h
  refine ⟨data', ?_⟩
  rw [recvHeader, if_neg (by omega), if_neg hr]
  simp only [Nat.add_zero, hex, hasError_eq_false herr hlive.1, hfin, ne_eq, not_true_eq_false,
    if_false, Nat.sub_self, hsize0, Bool.false_eq_true]

/-- A result holds the rest of the header, and `y` behind it. -/
theorem recvHeader_complete (hsize : (x ++ y).length ≤ buff_size) (hx : x ≠ [])
    (h : run M (write data 0 (x ++ y)) 0 (x ++ y) s.reset = some (x.length, t))
    (herr : t.m_error = 0) (hfin : M.first_final ≤ t.cs) :
    ∃ data', recvHeader M buff_size data 0 s ((x ++ y) :: results) =
      some (.complete data' y.length t, results) ∧ data'.take y.length = y := by
  have hpos : 0 < x.length := List.length_pos_iff.mpr hx
  have hr : x ++ y ≠ [] := fun h => hx (List.append_eq_nil_iff.mp h).1
  have hcs : t.cs ≠ M.error := fun h => absurd hfin (not_le.mpr (h ▸ M.error_lt))
  have hlen : (x ++ y).length - x.length = y.length := by rw [List.length_append]; omega
  have hsize' : ¬ y.length = buff_size := by rw [List.length_append] at hsize; omega
  have hfin' : t.isFinished M = 1 := by rw [isFinished, if_neg hcs, if_pos hfin]
  obtain ⟨data', hex, hrest⟩ := execute_write hr h
  rw [hlen, List.drop_left] at hrest
  refine ⟨data', ?_, hrest⟩
  rw [recvHeader, if_neg (by omega), if_neg hr]
  simp only [Nat.add_zero, hex, hasError_eq_false herr hcs, hfin', hlen, hsize', if_false,
    Bool.false_eq_true, ne_eq, one_ne_zero, not_false_eq_true, if_true]

end Header

/-! ### The body -/

section Body

variable {lexical_cast : Bytes → Option UInt64} {data y r : Bytes} {q : HttpRequest}
  {results : List Bytes}

theorem recvBody_none (h : contentLength lexical_cast q ≤ 0) (offset : Nat) :
    recvBody lexical_cast data offset q results = some (.request q.init, results) := by
  have h0 : (contentLength lexical_cast q).toNat = 0 := by omega
  simp [recvBody, h0]

/-- The buffer holds the body; what lies behind it is dropped. -/
theorem recvBody_held (h : 0 < contentLength lexical_cast q)
    (hle : contentLength lexical_cast q ≤ y.length) (hy : data.take y.length = y) :
    recvBody lexical_cast data y.length q results =
      some (.request (q.setBody (y.take (contentLength lexical_cast q).toNat)).init, results) := by
  have h0 : (contentLength lexical_cast q).toNat ≠ 0 := by omega
  have hle' : (contentLength lexical_cast q).toNat ≤ y.length := by omega
  have hdata : data.take (contentLength lexical_cast q).toNat =
      y.take (contentLength lexical_cast q).toNat := by
    rw [← hy, List.take_take, Nat.min_eq_left hle']
  simp [recvBody, h0, hle', write, hdata]

/-- The buffer holds `y` of the body, and one more `resv` returns `r`. -/
theorem recvBody_resv (hle : (y.length : Int) < contentLength lexical_cast q)
    (hy : data.take y.length = y) (hr : r ≠ [])
    (hsize : (r.length : Int) ≤ contentLength lexical_cast q - y.length) :
    recvBody lexical_cast data y.length q (r :: results) =
      some (.request (q.setBody (y ++ r ++ List.replicate
        ((contentLength lexical_cast q).toNat - (y.length + r.length)) 0)).init, results) := by
  have h0 : (contentLength lexical_cast q).toNat ≠ 0 := by omega
  have hlt : ¬ (contentLength lexical_cast q).toNat ≤ y.length := by omega
  have hsize' : ¬ (contentLength lexical_cast q).toNat - y.length < r.length := by omega
  have hmin : min y.length (contentLength lexical_cast q).toNat = y.length := by omega
  simp [recvBody, h0, hlt, hsize', hr, write, hmin, hy, Nat.sub_sub]

/-- A call that reads a header and a body. -/
theorem recvRequest_eq {M : Machine} {buff_size offset : Nat} {u : Uninit buff_size}
    {all rest : List Bytes} {t : HttpRequestParser} {q' : HttpRequest}
    (hheader : recvHeader M buff_size u.buffer 0 (.new M u.query_start) all =
      some (.complete data offset t, results))
    (hbody : recvBody lexical_cast data offset t.m_data results = some (.request q', rest)) :
    recvRequest M lexical_cast u ⟨false, all⟩ = some (.request q', ⟨false, rest⟩) := by
  rw [recvRequest, if_neg Bool.false_ne_true, hheader]
  show (recvBody lexical_cast data offset t.m_data results).map _ = _
  rw [hbody]
  rfl

end Body

end LimWebserver.Http
