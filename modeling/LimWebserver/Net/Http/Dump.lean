import LimWebserver.Net.Http.Message

namespace LimWebserver.Http

open Lib.Lines

/-!
# Http — responses and their texts

* `HttpStatus`, `HttpResponse` — a response; `WholeRequest` — a request with all its members;
* `dump` — the texts that are sent;
* `headerLines`, `own` — the header lines of a map, and the lines in a response that are not made by
  `dump` itself;
* `Framable`, `framed_iff` — exactly which responses a receiver finds the end of.
-/

inductive HttpStatus
  | CONTINUE | SWITCHING_PROTOCOLS | PROCESSING | OK | CREATED | ACCEPTED
  | NON_AUTHORITATIVE_INFORMATION | NO_CONTENT | RESET_CONTENT | PARTIAL_CONTENT | MULTI_STATUS
  | ALREADY_REPORTED | IM_USED | MULTIPLE_CHOICES | MOVED_PERMANENTLY | FOUND | SEE_OTHER
  | NOT_MODIFIED | USE_PROXY | TEMPORARY_REDIRECT | PERMANENT_REDIRECT | BAD_REQUEST | UNAUTHORIZED
  | PAYMENT_REQUIRED | FORBIDDEN | NOT_FOUND | METHOD_NOT_ALLOWED | NOT_ACCEPTABLE
  | PROXY_AUTHENTICATION_REQUIRED | REQUEST_TIMEOUT | CONFLICT | GONE | LENGTH_REQUIRED
  | PRECONDITION_FAILED | PAYLOAD_TOO_LARGE | URI_TOO_LONG | UNSUPPORTED_MEDIA_TYPE
  | RANGE_NOT_SATISFIABLE | EXPECTATION_FAILED | MISDIRECTED_REQUEST | UNPROCESSABLE_ENTITY
  | LOCKED | FAILED_DEPENDENCY | UPGRADE_REQUIRED | PRECONDITION_REQUIRED | TOO_MANY_REQUESTS
  | REQUEST_HEADER_FIELDS_TOO_LARGE | UNAVAILABLE_FOR_LEGAL_REASONS | INTERNAL_SERVER_ERROR
  | NOT_IMPLEMENTED | BAD_GATEWAY | SERVICE_UNAVAILABLE | GATEWAY_TIMEOUT
  | HTTP_VERSION_NOT_SUPPORTED | VARIANT_ALSO_NEGOTIATES | INSUFFICIENT_STORAGE | LOOP_DETECTED
  | NOT_EXTENDED | NETWORK_AUTHENTICATION_REQUIRED
  deriving DecidableEq, Repr

/-- `HTTP_STATUS_MAP`; the preprocessor makes the strings. -/
def httpStatusMap : List (HttpStatus × Nat × Bytes) :=
  [(.CONTINUE, 100, chars "Continue"), (.SWITCHING_PROTOCOLS, 101, chars "Switching Protocols"),
    (.PROCESSING, 102, chars "Processing"), (.OK, 200, chars "OK"),
    (.CREATED, 201, chars "Created"), (.ACCEPTED, 202, chars "Accepted"),
    (.NON_AUTHORITATIVE_INFORMATION, 203, chars "Non - Authoritative Information"),
    (.NO_CONTENT, 204, chars "No Content"), (.RESET_CONTENT, 205, chars "Reset Content"),
    (.PARTIAL_CONTENT, 206, chars "Partial Content"), (.MULTI_STATUS, 207, chars "Multi - Status"),
    (.ALREADY_REPORTED, 208, chars "Already Reported"), (.IM_USED, 226, chars "IM Used"),
    (.MULTIPLE_CHOICES, 300, chars "Multiple Choices"),
    (.MOVED_PERMANENTLY, 301, chars "Moved Permanently"), (.FOUND, 302, chars "Found"),
    (.SEE_OTHER, 303, chars "See Other"), (.NOT_MODIFIED, 304, chars "Not Modified"),
    (.USE_PROXY, 305, chars "Use Proxy"), (.TEMPORARY_REDIRECT, 307, chars "Temporary Redirect"),
    (.PERMANENT_REDIRECT, 308, chars "Permanent Redirect"),
    (.BAD_REQUEST, 400, chars "Bad Request"), (.UNAUTHORIZED, 401, chars "Unauthorized"),
    (.PAYMENT_REQUIRED, 402, chars "Payment Required"), (.FORBIDDEN, 403, chars "Forbidden"),
    (.NOT_FOUND, 404, chars "Not Found"), (.METHOD_NOT_ALLOWED, 405, chars "Method Not Allowed"),
    (.NOT_ACCEPTABLE, 406, chars "Not Acceptable"),
    (.PROXY_AUTHENTICATION_REQUIRED, 407, chars "Proxy Authentication Required"),
    (.REQUEST_TIMEOUT, 408, chars "Request Timeout"), (.CONFLICT, 409, chars "Conflict"),
    (.GONE, 410, chars "Gone"), (.LENGTH_REQUIRED, 411, chars "Length Required"),
    (.PRECONDITION_FAILED, 412, chars "Precondition Failed"),
    (.PAYLOAD_TOO_LARGE, 413, chars "Payload Too Large"),
    (.URI_TOO_LONG, 414, chars "URI Too Long"),
    (.UNSUPPORTED_MEDIA_TYPE, 415, chars "Unsupported Media Type"),
    (.RANGE_NOT_SATISFIABLE, 416, chars "Range Not Satisfiable"),
    (.EXPECTATION_FAILED, 417, chars "Expectation Failed"),
    (.MISDIRECTED_REQUEST, 421, chars "Misdirected Request"),
    (.UNPROCESSABLE_ENTITY, 422, chars "Unprocessable Entity"), (.LOCKED, 423, chars "Locked"),
    (.FAILED_DEPENDENCY, 424, chars "Failed Dependency"),
    (.UPGRADE_REQUIRED, 426, chars "Upgrade Required"),
    (.PRECONDITION_REQUIRED, 428, chars "Precondition Required"),
    (.TOO_MANY_REQUESTS, 429, chars "Too Many Requests"),
    (.REQUEST_HEADER_FIELDS_TOO_LARGE, 431, chars "Request Header Fields Too Large"),
    (.UNAVAILABLE_FOR_LEGAL_REASONS, 451, chars "Unavailable For Legal Reasons"),
    (.INTERNAL_SERVER_ERROR, 500, chars "Internal Server Error"),
    (.NOT_IMPLEMENTED, 501, chars "Not Implemented"), (.BAD_GATEWAY, 502, chars "Bad Gateway"),
    (.SERVICE_UNAVAILABLE, 503, chars "Service Unavailable"),
    (.GATEWAY_TIMEOUT, 504, chars "Gateway Timeout"),
    (.HTTP_VERSION_NOT_SUPPORTED, 505, chars "HTTP Version Not Supported"),
    (.VARIANT_ALSO_NEGOTIATES, 506, chars "Variant Also Negotiates"),
    (.INSUFFICIENT_STORAGE, 507, chars "Insufficient Storage"),
    (.LOOP_DETECTED, 508, chars "Loop Detected"), (.NOT_EXTENDED, 510, chars "Not Extended"),
    (.NETWORK_AUTHENTICATION_REQUIRED, 511, chars "Network Authentication Required")]

/-- `(uint32_t)s` -/
def HttpStatus.code (s : HttpStatus) : Nat :=
  match httpStatusMap.find? fun e => e.1 = s with
  | some e => e.2.1
  | none => 0

def httpStatusToString (s : HttpStatus) : Bytes :=
  match httpStatusMap.find? fun e => e.1 = s with
  | some e => e.2.2
  | none => chars "<unknown>"

def httpMethodToString (m : HttpMethod) : Bytes :=
  match httpMethodMap.find? fun e => e.1 = m with
  | some e => e.2
  | none => chars "<unknown>"

structure HttpResponse where
  m_status : HttpStatus
  m_version : UInt8
  m_close : Bool
  m_websocket : Bool
  m_body : Bytes
  m_reason : Bytes
  m_headers : MapType
  m_cookies : List Bytes
  deriving DecidableEq, Repr

/-- `HttpResponse(version, close)` -/
def HttpResponse.new (version : UInt8) (close : Bool) : HttpResponse where
  m_status := .OK
  m_version := version
  m_close := close
  m_websocket := false
  m_body := []
  m_reason := []
  m_headers := []
  m_cookies := []

/-- An `HttpRequest` with the members that the parser does not set. -/
structure WholeRequest extends HttpRequest where
  m_websocket : Bool
  m_parserParamFlag : UInt8
  m_params : MapType
  m_cookies : MapType
  deriving DecidableEq, Repr

/-- What `recvRequest` returns: the other members are as the constructor has left them. -/
def received (q : HttpRequest) : WholeRequest :=
  { q with m_websocket := false, m_parserParamFlag := 0, m_params := [], m_cookies := [] }

def crlf : Bytes := [13, 10]

/-! ### The texts -/

def dumpVersion (m_version : UInt8) : Bytes :=
  chars "HTTP/" ++ printed (m_version >>> 4).toNat ++ chars "." ++
    printed (m_version &&& 0x0F).toNat

/-- The loop over the map: a `connection` in it is left out. -/
def dumpHeaders (m_websocket : Bool) (m_headers : MapType) : Bytes :=
  m_headers.flatMap fun i =>
    if ¬ m_websocket ∧ strcasecmp i.1 (chars "connection") = .eq then []
    else i.1 ++ chars ": " ++ i.2 ++ crlf

def dumpConnection (m_websocket m_close : Bool) : Bytes :=
  if ¬ m_websocket then
    chars "connection: " ++ (if m_close then chars "close" else chars "keep-alive") ++ crlf
  else []

def dumpBody (m_body : Bytes) : Bytes :=
  if m_body ≠ [] then
    chars "content-length: " ++ printed m_body.length ++ crlf ++ crlf ++ m_body
  else crlf

namespace HttpResponse

def reasonText (r : HttpResponse) : Bytes :=
  if r.m_reason = [] then httpStatusToString r.m_status else r.m_reason

def dump (r : HttpResponse) : Bytes :=
  dumpVersion r.m_version ++ chars " " ++ printed r.m_status.code ++ chars " " ++ r.reasonText ++
    crlf ++ dumpHeaders r.m_websocket r.m_headers ++
    (r.m_cookies.flatMap fun i => chars "Set-Cookie: " ++ i ++ crlf) ++
    dumpConnection r.m_websocket r.m_close ++ dumpBody r.m_body

end HttpResponse

def WholeRequest.dump (q : WholeRequest) : Bytes :=
  httpMethodToString q.m_method ++ chars " " ++ q.m_path ++
    (if q.m_query = [] then [] else chars "?") ++ q.m_query ++
    (if q.m_fragment = [] then [] else chars "#") ++ q.m_fragment ++ chars " " ++
    dumpVersion q.m_version ++ crlf ++ dumpConnection q.m_websocket q.m_close ++
    dumpHeaders q.m_websocket q.m_headers ++ dumpBody q.m_body

/-! ### The lines of a text -/

/-- The header lines that the loop over a map makes where there is no websocket. -/
def headerLines (m_headers : MapType) : List Bytes :=
  (m_headers.filter fun i => strcasecmp i.1 (chars "connection") ≠ .eq).map fun i =>
    i.1 ++ chars ": " ++ i.2

def connectionLine (m_close : Bool) : Bytes :=
  chars "connection" ++ chars ": " ++ if m_close then chars "close" else chars "keep-alive"

def lengthLines (m_body : Bytes) : List Bytes :=
  if m_body ≠ [] then [chars "content-length" ++ chars ": " ++ printed m_body.length] else []

theorem dumpHeaders_eq (m_headers : MapType) :
    dumpHeaders false m_headers = unlines 13 10 (headerLines m_headers) := by
  induction m_headers with
  | nil => rfl
  | cons i m ih =>
    rw [dumpHeaders, List.flatMap_cons, ← dumpHeaders, ih, headerLines, headerLines]
    by_cases hname : strcasecmp i.1 (chars "connection") = .eq
    · rw [if_pos ⟨Bool.false_ne_true, hname⟩, List.filter_cons_of_neg (by simp [hname]),
        List.nil_append]
    · rw [if_neg fun h => hname h.2, List.filter_cons_of_pos (by simp [hname]), List.map_cons,
        unlines_cons]
      simp [crlf]

theorem dumpConnection_eq (m_close : Bool) :
    dumpConnection false m_close = unlines 13 10 [connectionLine m_close] := by
  rw [unlines_cons, unlines_nil, dumpConnection, if_pos Bool.false_ne_true]
  rfl

theorem dumpBody_eq (m_body : Bytes) :
    dumpBody m_body = unlines 13 10 (lengthLines m_body) ++ 13 :: 10 :: m_body := by
  unfold dumpBody lengthLines
  by_cases hbody : m_body = []
  · rw [if_neg (not_not.mpr hbody), if_neg (not_not.mpr hbody), hbody]
    rfl
  · rw [if_pos hbody, if_pos hbody, unlines_cons, unlines_nil]
    have hlabel : chars "content-length: " = chars "content-length" ++ chars ": " := by decide
    rw [hlabel]
    simp [crlf]

/-! ### Responses -/

/-- No line ends in a text. -/
def Plain (text : Bytes) : Prop := 13 ∉ text ∧ 10 ∉ text

instance (text : Bytes) : Decidable (Plain text) := inferInstanceAs (Decidable (_ ∧ _))

namespace HttpResponse

/-- The texts of the headers and the cookies have no line ends. -/
structure PlainTexts (r : HttpResponse) : Prop where
  headers : ∀ i ∈ r.m_headers, Plain i.1 ∧ Plain i.2
  cookies : ∀ i ∈ r.m_cookies, Plain i

/-- The lines behind the start line that are not made by `dump` itself: those behind the first one
    in the reason, and the headers in the map. -/
def own (r : HttpResponse) : List Bytes := further 13 10 r.m_reason ++ headerLines r.m_headers

/-- **The condition.** Nothing but `dump` makes a `connection` header; nothing else makes a
    `content-length` header if there is a body, and the map has one, which says `0`, if there is
    none; and the reason has no empty line in it. -/
structure Framable (r : HttpResponse) : Prop where
  reason : [] ∉ further 13 10 r.m_reason
  connection : values (chars "connection") r.own = []
  body : r.m_body ≠ [] → values (chars "content-length") r.own = []
  empty : r.m_body = [] → ∃ v, values (chars "content-length") r.own = [v] ∧ number v = some 0

end HttpResponse

theorem not_mem_printed (n : Nat) : 13 ∉ printed n :=
  fun h => absurd (digit_of_mem_printed h).1 (by decide)

theorem not_mem_dumpVersion (m_version : UInt8) : 13 ∉ dumpVersion m_version := by
  have htexts : 13 ∉ chars "HTTP/" ∧ 13 ∉ chars "." := by decide
  simp only [dumpVersion, List.mem_append, not_or]
  exact ⟨⟨⟨htexts.1, not_mem_printed _⟩, htexts.2⟩, not_mem_printed _⟩

theorem not_mem_httpStatusToString (s : HttpStatus) : 13 ∉ httpStatusToString s := by
  have htable : ∀ e ∈ httpStatusMap, 13 ∉ e.2.2 := by decide +kernel
  unfold httpStatusToString
  split
  case h_1 e he => exact htable e (List.mem_of_find?_eq_some he)
  case h_2 => decide

/-- A line that a head can have. -/
theorem line_ok {key val : Bytes} (hkey : 13 ∉ key) (hval : 13 ∉ val) :
    key ++ chars ": " ++ val ≠ [] ∧ 13 ∉ key ++ chars ": " ++ val := by
  have hcolon : chars ": " ≠ [] ∧ 13 ∉ chars ": " := by decide
  constructor
  · intro h
    exact hcolon.1 (List.append_eq_nil_iff.mp (List.append_eq_nil_iff.mp h).1).2
  · simp only [List.mem_append, not_or]
    exact ⟨⟨hkey, hcolon.2⟩, hval⟩

theorem headerLines_ok {m : MapType} (h : ∀ i ∈ m, 13 ∉ i.1 ∧ 13 ∉ i.2) :
    ∀ l ∈ headerLines m, l ≠ [] ∧ 13 ∉ l := by
  intro l hl
  obtain ⟨i, hi, rfl⟩ := List.mem_map.mp hl
  obtain ⟨hkey, hval⟩ := h i (List.mem_of_mem_filter hi)
  exact line_ok hkey hval

theorem connectionLine_ok (m_close : Bool) :
    connectionLine m_close ≠ [] ∧ 13 ∉ connectionLine m_close := by
  apply line_ok
  · decide
  · cases m_close <;> decide

theorem lengthLines_ok (m_body : Bytes) : ∀ l ∈ lengthLines m_body, l ≠ [] ∧ 13 ∉ l := by
  intro l hl
  unfold lengthLines at hl
  split_ifs at hl
  · rw [List.mem_singleton.mp hl]
    exact line_ok (by decide) (not_mem_printed _)
  · exact absurd hl List.not_mem_nil

/-- What the lines say that `dump` makes itself. -/
theorem values_connectionLine (m_close : Bool) :
    values (chars "connection") [connectionLine m_close] =
        [if m_close then chars "close" else chars "keep-alive"] ∧
      values (chars "content-length") [connectionLine m_close] = [] := by
  cases m_close <;> decide +kernel

theorem values_lengthLines (m_body : Bytes) :
    values (chars "connection") (lengthLines m_body) = [] ∧
      values (chars "content-length") (lengthLines m_body) =
        if m_body ≠ [] then [printed m_body.length] else [] := by
  have hname : (chars "content-length").map tolower = chars "content-length" ∧
      (chars "content-length").map tolower ≠ chars "connection" := by decide
  have hcolon : 58 ∉ chars "content-length" := by decide
  unfold lengthLines
  split_ifs with hbody
  · rw [values_line hcolon, values_line hcolon, if_neg hname.2, if_pos hname.1, strip_printed]
    exact ⟨rfl, rfl⟩
  · exact ⟨rfl, rfl⟩

/-- A cookie is neither of the two headers. -/
theorem values_cookies {name : Bytes} (hname : name ≠ chars "set-cookie") (cookies : List Bytes) :
    values name (cookies.map fun i => chars "Set-Cookie" ++ chars ": " ++ i) = [] := by
  have hlower : (chars "Set-Cookie").map tolower = chars "set-cookie" := by decide
  induction cookies with
  | nil => rfl
  | cons i cookies ih =>
    rw [List.map_cons, values_cons, ih, values_line (by decide), hlower, if_neg (Ne.symm hname)]
    rfl

namespace HttpResponse

variable {r : HttpResponse}

/-- The lines behind the text of the reason. -/
def linesBehind (r : HttpResponse) : List Bytes :=
  headerLines r.m_headers ++ r.m_cookies.map (fun i => chars "Set-Cookie" ++ chars ": " ++ i) ++
    [connectionLine r.m_close] ++ lengthLines r.m_body

/-- What stands before the text of the reason. -/
def startText (r : HttpResponse) : Bytes :=
  dumpVersion r.m_version ++ chars " " ++ printed r.m_status.code ++ chars " "

theorem dump_eq (hws : r.m_websocket = false) :
    r.dump = unlines 13 10 ((r.startText ++ r.reasonText) :: r.linesBehind) ++
      13 :: 10 :: r.m_body := by
  have hcookies : (r.m_cookies.flatMap fun i => chars "Set-Cookie: " ++ i ++ crlf) =
      unlines 13 10 (r.m_cookies.map fun i => chars "Set-Cookie" ++ chars ": " ++ i) := by
    have hlabel : chars "Set-Cookie: " = chars "Set-Cookie" ++ chars ": " := by decide
    rw [unlines, List.flatMap_map, hlabel]
    rfl
  rw [dump, hws, dumpHeaders_eq, hcookies, dumpConnection_eq, dumpBody_eq]
  simp only [linesBehind, startText, unlines_cons, unlines_nil, unlines_append, crlf,
    List.append_assoc, List.cons_append, List.nil_append]

theorem linesBehind_ok (h : r.PlainTexts) : ∀ l ∈ r.linesBehind, l ≠ [] ∧ 13 ∉ l := by
  intro l hl
  simp only [linesBehind, List.mem_append, List.mem_singleton] at hl
  rcases hl with ((hl | hl) | rfl) | hl
  · exact headerLines_ok (fun i hi => ⟨(h.headers i hi).1.1, (h.headers i hi).2.1⟩) l hl
  · obtain ⟨i, hi, rfl⟩ := List.mem_map.mp hl
    exact line_ok (by decide) (h.cookies i hi).1
  · exact connectionLine_ok _
  · exact lengthLines_ok _ l hl

/-- The start line takes up the first line of the reason. -/
theorem lines_start (r : HttpResponse) : ∃ first, first ≠ [] ∧
    lines 13 10 [] (r.startText ++ r.reasonText) = first :: further 13 10 r.m_reason := by
  have hblank : chars " " ≠ [] ∧ 13 ∉ chars " " := by decide
  have hstart : 13 ∉ r.startText := by
    simp only [startText, List.mem_append, not_or]
    exact ⟨⟨⟨not_mem_dumpVersion _, hblank.2⟩, not_mem_printed _⟩, hblank.2⟩
  have hreason : further 13 10 r.reasonText = further 13 10 r.m_reason := by
    unfold reasonText
    split_ifs with hempty
    · rw [further_eq_nil (not_mem_httpStatusToString _), hempty, further_eq_nil List.not_mem_nil]
    · rfl
  obtain ⟨first, hfirst⟩ : ∃ first, lines 13 10 ([] ++ r.startText) r.reasonText = _ :=
    lines_line ([] ++ r.startText) r.reasonText
  refine ⟨[] ++ r.startText ++ first, ?_, ?_⟩
  · intro h
    have hnil : r.startText = [] := (List.append_eq_nil_iff.mp (List.append_eq_nil_iff.mp h).1).2
    exact hblank.1 (List.append_eq_nil_iff.mp hnil).2
  · rw [lines_append hstart, hfirst, hreason]

/-- The lines of a response. -/
theorem allLines_dump (htexts : r.PlainTexts) : ∃ start, start ≠ [] ∧
    allLines 13 10 ((r.startText ++ r.reasonText) :: r.linesBehind) =
      start :: (further 13 10 r.m_reason ++ r.linesBehind) := by
  obtain ⟨first, hfirst, hlines⟩ := r.lines_start
  refine ⟨first, hfirst, ?_⟩
  rw [allLines_cons, hlines, allLines_eq fun l hl => (linesBehind_ok htexts l hl).2]
  rfl

/-- The head of a response whose reason has no empty line. -/
theorem head_dump (hws : r.m_websocket = false) (htexts : r.PlainTexts)
    (hreason : [] ∉ further 13 10 r.m_reason) : ∃ start, head 13 10 [] r.dump =
      some (start :: (further 13 10 r.m_reason ++ r.linesBehind), r.m_body) := by
  obtain ⟨start, hstart, hlines⟩ := allLines_dump htexts
  have hempty : [] ∉ allLines 13 10 ((r.startText ++ r.reasonText) :: r.linesBehind) := by
    rw [hlines]
    simp only [List.mem_cons, List.mem_append, not_or]
    exact ⟨Ne.symm hstart, hreason, fun hmem => (linesBehind_ok htexts _ hmem).1 rfl⟩
  refine ⟨start, ?_⟩
  rw [dump_eq hws, head_unlines (by decide) hempty, hlines, head_end, Option.map_some,
    List.append_nil]

theorem values_linesBehind (r : HttpResponse) :
    values (chars "connection") (further 13 10 r.m_reason ++ r.linesBehind) =
        values (chars "connection") r.own ++
          [if r.m_close then chars "close" else chars "keep-alive"] ∧
      values (chars "content-length") (further 13 10 r.m_reason ++ r.linesBehind) =
        values (chars "content-length") r.own ++
          if r.m_body ≠ [] then [printed r.m_body.length] else [] := by
  obtain ⟨hconn, hlen⟩ := values_connectionLine r.m_close
  obtain ⟨hconn', hlen'⟩ := values_lengthLines r.m_body
  have hname : chars "connection" ≠ chars "set-cookie" ∧
      chars "content-length" ≠ chars "set-cookie" := by decide
  simp only [linesBehind, own, values_append, values_cookies hname.1, values_cookies hname.2, hconn,
    hlen, hconn', hlen', List.append_nil]
  constructor <;> rw [List.append_assoc]

/-- **Responses.** A receiver finds the end of a response exactly under the condition. -/
theorem framed_iff_framable (hws : r.m_websocket = false) (htexts : r.PlainTexts) :
    Framed r.dump r.m_close r.m_body ↔ r.Framable := by
  obtain ⟨hconn, hlen⟩ := r.values_linesBehind
  constructor
  · rintro ⟨start, ls, hhead, hclose, v, hv, hnumber⟩
    have hreason : [] ∉ further 13 10 r.m_reason := by
      intro hempty
      -- what follows the reason would be in the body
      obtain ⟨start', -, hlines⟩ := allLines_dump htexts
      have hmem : [] ∈ allLines 13 10 ((r.startText ++ r.reasonText) :: r.linesBehind) := by
        rw [hlines]
        exact List.mem_cons_of_mem _ (List.mem_append_left _ hempty)
      obtain ⟨body, hhead'⟩ := head_unlines_empty (show (13 : UInt8) ≠ 10 by decide)
        (13 :: 10 :: r.m_body) hmem
      rw [dump_eq hws, hhead'] at hhead
      have hlength := congrArg List.length (Prod.mk.inj (Option.some.inj hhead)).2
      simp only [List.length_append, List.length_cons] at hlength
      omega
    obtain ⟨start', hhead'⟩ := head_dump hws htexts hreason
    rw [hhead'] at hhead
    obtain ⟨hls, -⟩ := Prod.mk.inj (Option.some.inj hhead)
    obtain ⟨-, rfl⟩ := List.cons.inj hls
    rw [hconn] at hclose
    rw [hlen] at hv
    refine ⟨hreason, List.append_left_eq_self.mp hclose, fun hbody => ?_, fun hbody => ?_⟩
    · rw [if_pos hbody] at hv
      have hlength := congrArg List.length hv
      rw [List.length_append, List.length_singleton, List.length_singleton] at hlength
      exact List.eq_nil_of_length_eq_zero (by omega)
    · rw [if_neg (not_not.mpr hbody), List.append_nil] at hv
      rw [hbody] at hnumber
      exact ⟨v, hv, hnumber⟩
  · intro h
    obtain ⟨start, hhead⟩ := head_dump hws htexts h.reason
    refine ⟨start, _, hhead, ?_, ?_⟩
    · rw [hconn, h.connection, List.nil_append]
    · rw [hlen]
      by_cases hbody : r.m_body = []
      · obtain ⟨v, hv, hnumber⟩ := h.empty hbody
        refine ⟨v, ?_, ?_⟩
        · rw [hv, if_neg (not_not.mpr hbody), List.append_nil]
        · rw [hnumber, hbody, List.length_nil]
      · refine ⟨printed r.m_body.length, ?_, number_printed _⟩
        rw [h.body hbody, if_pos hbody, List.nil_append]

end HttpResponse

end LimWebserver.Http
