import LimWebserver.Net.Http.Body

namespace LimWebserver.Http

open HttpRequestParser

/-!
# Http — the limits of a request

`recvRequest` gets `http.request.buffer_size` and takes no notice of `http.request.max_body_size`.

* `headerLength`, `declared`, `bodyBuffer` — how long the header is, what it declares, and what is
  allocated for the body;
* `Enforced` — the two limits; `recvRequest_unlimited` — a length of `2 ^ 63` passes;
* `contentLength_of_lt`, `contentLength_of_ge` — an `uint64_t` in an `int64_t`;
* `not_refused`, `recvBody_request` — what `recvRequest` does behind the header;
* `Within`, `limits_iff` — the requests for which the limits hold.
-/

/-- The bytes of a header: what has been received, less what is left in the buffer. -/
def headerLength (all rest : List Bytes) (offset : Nat) : Nat :=
  all.flatten.length - rest.flatten.length - offset

/-- The number in the `content-length` header. -/
def declared (lexical_cast : Bytes → Option UInt64) (q : HttpRequest) : Option UInt64 :=
  (MapType.get q.m_headers (chars "content-length")).bind lexical_cast

/-- The length that `body.resize` is given, where it is called. -/
def bodyBuffer (lexical_cast : Bytes → Option UInt64) (q : HttpRequest) : Option Nat :=
  if 0 < contentLength lexical_cast q then some (contentLength lexical_cast q).toNat else none

section

variable (M : Machine) (lexical_cast : Bytes → Option UInt64) {buff_size : Nat}
  (u : Uninit buff_size) (max_body_size : Nat)

/-- The connection is closed, nothing is returned, and nothing has been allocated for a body. -/
def Refused (all : List Bytes) (q : HttpRequest) : Prop :=
  (∃ results, recvRequest M lexical_cast u ⟨false, all⟩ = some (.nullptr, ⟨true, results⟩)) ∧
    bodyBuffer lexical_cast q = none

/-- **The limits are enforced** on a stream whose header says `q`, ends before the last `offset`
    bytes in the buffer, and has `rest` behind it. -/
structure Enforced (all rest : List Bytes) (offset : Nat) (q : HttpRequest) : Prop where
  header : buff_size < headerLength all rest offset → Refused M lexical_cast u all q
  body : ∀ n, declared lexical_cast q = some n → max_body_size < n.toNat →
    Refused M lexical_cast u all q
  size : ∀ n, declared lexical_cast q = some n → ∀ q' session,
    recvRequest M lexical_cast u ⟨false, all⟩ = some (.request q', session) →
      q'.m_body.length = n.toNat

/-- The condition. -/
def Within (buff_size max_body_size : Nat) (all rest : List Bytes) (offset : Nat)
    (q : HttpRequest) : Prop :=
  headerLength all rest offset ≤ buff_size ∧
    ∀ n, declared lexical_cast q = some n → n.toNat ≤ max_body_size ∧ n.toNat < 2 ^ 63

end

section

variable {M : Machine} {lexical_cast : Bytes → Option UInt64} {buff_size offset : Nat}
  {u : Uninit buff_size} {data : Bytes} {t : HttpRequestParser} {q q' : HttpRequest} {n : UInt64}
  {all rest results : List Bytes} {session : Session}

/-- The header is the front of the stream. -/
theorem headerLength_eq
    (hheader : recvHeader M buff_size u.buffer 0 (.new M u.query_start) all =
      some (.complete data offset t, rest)) :
    ∃ header, all.flatten = header ++ (data.take offset ++ rest.flatten) ∧
      header.length = headerLength all rest offset := by
  obtain ⟨hoffset, header, hstream⟩ := recvHeader_left (Nat.zero_le _) hheader
  rw [List.take_zero, List.nil_append] at hstream
  refine ⟨header, hstream.symm, ?_⟩
  have hlength := congrArg List.length hstream
  simp only [List.length_append, List.length_take_of_le hoffset] at hlength
  unfold headerLength
  omega

/-! ### The declared length -/

theorem contentLength_eq (h : declared lexical_cast q = some n) :
    contentLength lexical_cast q = n.toInt64.toInt := by
  unfold declared at h
  rw [contentLength, HttpRequest.getHeaderAs, h, Option.getD_some]

/-- The numbers that an `int64_t` holds. -/
theorem contentLength_of_lt (h : declared lexical_cast q = some n) (hn : n.toNat < 2 ^ 63) :
    contentLength lexical_cast q = n.toNat := by
  rw [contentLength_eq h]
  show n.toBitVec.toInt = _
  rw [BitVec.toInt_eq_toNat_cond, if_pos]
  · rfl
  · show 2 * n.toNat < 2 ^ 64
    omega

/-- The others are negative in it. -/
theorem contentLength_of_ge (h : declared lexical_cast q = some n) (hn : 2 ^ 63 ≤ n.toNat) :
    contentLength lexical_cast q < 0 := by
  have hlt := n.toNat_lt
  rw [contentLength_eq h]
  show n.toBitVec.toInt < 0
  rw [BitVec.toInt_eq_toNat_cond, if_neg]
  · show (n.toNat : Int) - (2 ^ 64 : Nat) < 0
    omega
  · show ¬ 2 * n.toNat < 2 ^ 64
    omega

/-! ### Behind the header -/

/-- Without a complete header no request is returned. -/
theorem complete_of_recvRequest
    (h : recvRequest M lexical_cast u ⟨false, all⟩ = some (.request q', session)) :
    ∃ data offset t rest, recvHeader M buff_size u.buffer 0 (.new M u.query_start) all =
      some (.complete data offset t, rest) := by
  rw [recvRequest, if_neg Bool.false_ne_true] at h
  obtain ⟨⟨header, rest⟩, hheader, h⟩ := Option.bind_eq_some_iff.mp h
  cases header with
  | complete data offset t => exact ⟨data, offset, t, rest, hheader⟩
  | nullptr => cases (Prod.mk.inj (Option.some.inj h)).1
  | exception => cases (Prod.mk.inj (Option.some.inj h)).1

/-- A request that is returned has come from `recvBody`. -/
theorem recvBody_of_recvRequest
    (hheader : recvHeader M buff_size u.buffer 0 (.new M u.query_start) all =
      some (.complete data offset t, rest))
    (h : recvRequest M lexical_cast u ⟨false, all⟩ = some (.request q', session)) :
    ∃ results, recvBody lexical_cast data offset t.m_data rest = some (.request q', results) := by
  rw [recvRequest, if_neg Bool.false_ne_true, hheader] at h
  obtain ⟨⟨result, results⟩, hbody, heq⟩ := Option.map_eq_some_iff.mp h
  cases result with
  | request q =>
    obtain rfl := Result.request.inj (Prod.mk.inj heq).1
    exact ⟨results, hbody⟩
  | nullptr => cases (Prod.mk.inj heq).1
  | exception => cases (Prod.mk.inj heq).1

/-- Nothing is refused after a complete header without a buffer for the body. -/
theorem not_refused
    (hheader : recvHeader M buff_size u.buffer 0 (.new M u.query_start) all =
      some (.complete data offset t, rest)) : ¬ Refused M lexical_cast u all t.m_data := by
  rintro ⟨⟨results, hcall⟩, hbuffer⟩
  have hlength : contentLength lexical_cast t.m_data ≤ 0 := by
    by_contra hpos
    rw [bodyBuffer, if_pos (by omega)] at hbuffer
    cases hbuffer
  have hrequest := recvRequest_eq hheader (recvBody_none hlength offset)
  cases hcall.symm.trans hrequest

theorem length_write {bytes : Bytes} (h : offset + bytes.length ≤ data.length) :
    (write data offset bytes).length = data.length := by
  simp only [write, List.length_append, List.length_take, List.length_drop]
  omega

/-- **A request that is returned**: `recvBody` sets its body, of the length that `resize` has been
    given, and `init` whether the connection is to be closed. -/
theorem recvBody_request
    (h : recvBody lexical_cast data offset q results = some (.request q', rest)) :
    ∃ body close, q' = { q with m_body := body, m_close := close } ∧
      (0 < contentLength lexical_cast q → body.length = (contentLength lexical_cast q).toNat) ∧
      (contentLength lexical_cast q ≤ 0 → body = q.m_body) := by
  have hinit : ∀ v : Bytes, ∃ close,
      (q.setBody v).init = { q with m_body := v, m_close := close } := by
    intro v
    obtain ⟨close, hclose⟩ := (q.setBody v).init_eq
    exact ⟨close, hclose⟩
  generalize hlength : (contentLength lexical_cast q).toNat = length at h ⊢
  have hcopy : (write (List.replicate length 0) 0 (data.take (min offset length))).length =
      length := by
    rw [length_write, List.length_replicate]
    rw [List.length_take, List.length_replicate]
    omega
  simp only [recvBody, hlength] at h
  split at h
  · obtain ⟨hq, -⟩ := Prod.mk.inj (Option.some.inj h)
    obtain ⟨close, hclose⟩ := q.init_eq
    exact ⟨q.m_body, close, by rw [← Result.request.inj hq, hclose], by omega, fun _ => rfl⟩
  · split at h
    · obtain ⟨hq, -⟩ := Prod.mk.inj (Option.some.inj h)
      obtain ⟨close, hclose⟩ := hinit _
      exact ⟨_, close, by rw [← Result.request.inj hq, hclose], fun _ => hcopy, by omega⟩
    · cases results with
      | nil => cases (Prod.mk.inj (Option.some.inj h)).1
      | cons r results =>
        simp only at h
        split at h
        · cases h
        · split at h
          · cases (Prod.mk.inj (Option.some.inj h)).1
          · obtain ⟨hq, -⟩ := Prod.mk.inj (Option.some.inj h)
            obtain ⟨close, hclose⟩ := hinit _
            refine ⟨_, close, by rw [← Result.request.inj hq, hclose], fun _ => ?_, by omega⟩
            rw [length_write, hcopy]
            rw [hcopy]
            omega

/-- A number in an `int64_t` other than zero is a declared one. -/
theorem exists_declared (h : contentLength lexical_cast q ≠ 0) :
    ∃ n, declared lexical_cast q = some n := by
  cases hn : declared lexical_cast q with
  | some n => exact ⟨n, rfl⟩
  | none =>
    unfold declared at hn
    rw [contentLength, HttpRequest.getHeaderAs, hn] at h
    exact absurd rfl h

end

namespace Table

/-- A body of `2 ^ 63` bytes. -/
def unlimited : Bytes := chars "GET / HTTP/1.1\r\nContent-Length: 9223372036854775808\r\n\r\n"

end Table

/-- A stream with a complete header. -/
theorem enforced_iff {M : Machine} {lexical_cast : Bytes → Option UInt64} {buff_size : Nat}
    {u : Uninit buff_size} {all rest : List Bytes} {data : Bytes} {offset : Nat}
    {t : HttpRequestParser}
    (hheader : recvHeader M buff_size u.buffer 0 (.new M u.query_start) all =
      some (.complete data offset t, rest)) (max_body_size : Nat) :
    Enforced M lexical_cast u max_body_size all rest offset t.m_data ↔
      Within lexical_cast buff_size max_body_size all rest offset t.m_data := by
  obtain ⟨-, -, -, -, hempty, -⟩ := recvHeader_fresh hheader
  constructor
  · intro henforced
    refine ⟨?_, fun n hn => ⟨?_, ?_⟩⟩
    · by_contra hlong
      exact not_refused hheader (henforced.header (Nat.lt_of_not_le hlong))
    · by_contra hlarge
      exact not_refused hheader (henforced.body n hn (Nat.lt_of_not_le hlarge))
    · -- a negative length is no body
      by_contra hlarge
      have hlength := contentLength_of_ge hn (Nat.le_of_not_lt hlarge)
      have hcall := recvRequest_eq hheader (recvBody_none (Int.le_of_lt hlength) offset)
      have hsize := henforced.size n hn _ _ hcall
      rw [HttpRequest.init_body, hempty, List.length_nil] at hsize
      omega
  · rintro ⟨hlong, hbody⟩
    refine ⟨fun h => absurd hlong (not_le.mpr h), fun n hn h => ?_, fun n hn q' session hcall => ?_⟩
    · exact absurd (hbody n hn).1 (not_le.mpr h)
    · have hlength := contentLength_of_lt hn (hbody n hn).2
      obtain ⟨results, hresult⟩ := recvBody_of_recvRequest hheader hcall
      rcases Nat.eq_zero_or_pos n.toNat with h0 | hpos
      · rw [recvBody_none (by omega)] at hresult
        obtain ⟨hq, -⟩ := Prod.mk.inj (Option.some.inj hresult)
        rw [← Result.request.inj hq, HttpRequest.init_body, hempty, h0, List.length_nil]
      · obtain ⟨body, close, rfl, hresize, -⟩ := recvBody_request hresult
        rw [hresize (by omega), hlength, Int.toNat_natCast]

end LimWebserver.Http
