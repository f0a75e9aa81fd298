import LimWebserver.Net.Http.Pipeline
import LimWebserver.Net.Http.SendResponse

namespace LimWebserver.Http

open Lib.Lines

/-!
# Http — a server and one of its clients

`HttpServer::handleClient` receives a request, sends the response to it, and goes on as long as both
sides want to keep the connection.  What `sendResponse` returns is not looked at.

* `Client` — the socket: what `resv` and `send` will return, and what has been accepted;
* `HttpServer.respond`, `HttpServer.handleClient` — the functions;
* `Round` — what one round of the loop does;
* `handleClient_wholly_iff` — the client gets the responses and nothing else exactly if each of them
  is taken at once;
* `handleClient_framed` — it then finds each of them, in the order of its requests, and is told
  which one is the last;
* `handleClient_rounds` — the loop ends.
-/

/-- The socket of a client, with the outcomes of the calls to come and the bytes that it has
    accepted. -/
structure Client extends Session where
  outcomes : List SendOutcome
  accepted : Bytes
  deriving DecidableEq, Repr

namespace Client

variable (c : Client)

/-- The socket as `recvRequest` leaves it. -/
def received (session : Session) : Client := { c with toSession := session }

/-- The socket as `sendResponse` sees it. -/
def connection : Connection := ⟨!c.closed, c.outcomes, c.accepted⟩

/-- The socket as `sendResponse` leaves it. -/
def sent (connection : Connection) : Client :=
  { c with outcomes := connection.outcomes, accepted := connection.accepted }

/-- `session->close()` -/
def close : Client := { c with closed := true }

end Client

structure HttpServer where
  m_isKeepalive : Bool
  m_name : Bytes

/-- The body of all responses. -/
def page : Bytes :=
  chars ("hello world, If you see this page, the lim web server is successfully installed and " ++
    "working. Further configuration is required.")

namespace HttpServer

/-- The connection is closed behind the response. -/
def closes (this : HttpServer) (req : HttpRequest) : Bool := !this.m_isKeepalive || req.m_close

/-- The response to a request. -/
def respond (this : HttpServer) (req : HttpRequest) : HttpResponse :=
  { HttpResponse.new req.m_version (req.m_close || !this.m_isKeepalive) with
    m_headers := MapType.set [] (chars "Server") this.m_name
    m_body := page }

section

variable (M : Machine) (lexical_cast : Bytes → Option UInt64) {buff_size : Nat} (hooked : Bool)

/-- `HttpServer::handleClient`, with one element of `us` for each round: the requests that have been
    answered, the socket at the end, and whether an exception has left the function. None: a call
    does not return, or there are more rounds. -/
def handleClient (this : HttpServer) :
    List (Uninit buff_size) → Client → Option (List HttpRequest × Client × Bool)
  | [], _ => none
  | u :: us, c =>
    (recvRequest M lexical_cast u c.toSession).bind fun
      | (.request req, session) =>
        (sendResponse hooked (c.received session).connection (this.respond req)).bind fun (_, r) =>
          let c := (c.received session).sent r
          if this.closes req then some ([req], c.close, false)
          else (handleClient this us c).map fun r => (req :: r.1, r.2)
      | (.nullptr, session) => some ([], (c.received session).close, false)
      | (.exception, session) => some ([], c.received session, true)

end

end HttpServer

/-! ### One response -/

/-- The outcomes behind the one that `do_io` does not retry. -/
def behindAnswer (hooked : Bool) (outcomes : List SendOutcome) : List SendOutcome :=
  (outcomes.dropWhile fun o => hooked ∧ o.retried).tail

/-- Each text is taken by one call. -/
def WhollyTaken (hooked : Bool) : List Bytes → List SendOutcome → Prop
  | [], _ => True
  | text :: texts, outcomes =>
    answer hooked outcomes = some (.accepts text.length) ∧
      WhollyTaken hooked texts (behindAnswer hooked outcomes)

section Send

variable {hooked : Bool} {buffer accepted : Bytes} {outcomes : List SendOutcome}

theorem doIo_answer : doIo hooked buffer outcomes accepted =
    (answer hooked outcomes).bind fun o => (o.result buffer).map fun r =>
      (r.1, behindAnswer hooked outcomes, accepted ++ r.2) := by
  induction outcomes with
  | nil => rfl
  | cons o outcomes ih =>
    rw [doIo]
    by_cases hretried : hooked ∧ o.retried
    · have hdrop : behindAnswer hooked (o :: outcomes) = behindAnswer hooked outcomes := by
        rw [behindAnswer, List.dropWhile_cons_of_pos (by simpa using hretried), ← behindAnswer]
      rw [if_pos hretried, answer, List.find?_cons_of_neg (by simpa using hretried), ← answer,
        hdrop]
      exact ih
    · have hdrop : behindAnswer hooked (o :: outcomes) = outcomes := by
        rw [behindAnswer, List.dropWhile_cons_of_neg (by simpa using hretried), List.tail_cons]
      rw [if_neg hretried, answer, List.find?_cons_of_pos (by rw [decide_eq_true hretried]), hdrop]
      rfl

/-- What `sendResponse` does to an open socket. -/
theorem sendResponse_eq {c : Connection} (hc : c.m_isConnected = true) (rsp : HttpResponse) :
    sendResponse hooked c rsp = (answer hooked c.outcomes).bind fun o =>
      (o.result rsp.dump).map fun r => (toInt r.1,
        ⟨true, behindAnswer hooked c.outcomes, c.accepted ++ r.2⟩) := by
  obtain ⟨_, outcomes, accepted⟩ := c
  obtain rfl : _ = true := hc
  rw [sendResponse, Connection.send, if_neg (by simp), Connection.socketSend, if_pos rfl,
    doIo_answer]
  cases answer hooked outcomes with
  | none => rfl
  | some o => cases h : o.result rsp.dump <;> simp [h]

/-- A call takes the front of the text. -/
theorem SendOutcome.result_prefix {o : SendOutcome} {n : Int} {part : Bytes}
    (h : o.result buffer = some (n, part)) : part <+: buffer := by
  cases o with
  | accepts m =>
    rw [result] at h
    split_ifs at h
    cases h
    exact List.take_prefix _ _
  | _ =>
    cases h
    exact List.nil_prefix

/-- It takes all of it if it says so. -/
theorem SendOutcome.result_whole {o : SendOutcome} {n : Int} {part : Bytes} (hb : buffer ≠ [])
    (h : o.result buffer = some (n, part)) : part = buffer ↔ o = .accepts buffer.length := by
  cases o with
  | accepts m =>
    rw [result] at h
    split_ifs at h with hm
    cases h
    rw [List.take_eq_self_iff, SendOutcome.accepts.injEq]
    omega
  | _ =>
    cases h
    exact iff_of_false (Ne.symm hb) (by simp)

end Send

/-! ### Two clients -/

namespace Table

def server : HttpServer := ⟨true, chars "default_server"⟩

/-- A request that wants to keep the connection. -/
def keepAlive : HttpRequest :=
  (HttpRequest.new.setHeader (chars "connection") (chars "keep-alive")).init

/-- A client that sends this request and one that closes, and of whose socket the calls of `send`
    come to `outcomes`. -/
def twoRequests (outcomes : List SendOutcome) : Client where
  closed := false
  results := [chars "GET / HTTP/1.1\r\nconnection: keep-alive\r\n\r\n",
    chars "GET / HTTP/1.1\r\n\r\n"]
  outcomes := outcomes
  accepted := []

/-- How its connection ends. -/
def ended (accepted : Bytes) : Client := ⟨⟨true, []⟩, [], accepted⟩

/-- The texts of the two responses. -/
def texts : List Bytes := [keepAlive, .new].map fun req => (server.respond req).dump

/-- Each response is taken at once. -/
theorem handleClient_whole : server.handleClient machine decimal true [zeros, zeros]
    (twoRequests (texts.map fun text => .accepts text.length)) =
      some ([keepAlive, .new], ended texts.flatten, false) := by
  decide +kernel

/-- A byte of the first response is taken. -/
theorem handleClient_cut : server.handleClient machine decimal true [zeros, zeros]
    (twoRequests [.accepts 1, .accepts (server.respond .new).dump.length]) =
      some ([keepAlive, .new], ended (chars "H" ++ (server.respond .new).dump), false) := by
  decide +kernel

end Table

/-! ### One round -/

section Loop

variable {M : Machine} {lexical_cast : Bytes → Option UInt64} {buff_size : Nat} {hooked : Bool}
  {this : HttpServer} {u : Uninit buff_size} {us us' : List (Uninit buff_size)} {c c' : Client}
  {reqs : List HttpRequest} {thrown : Bool}

/-- The text of the response to a request. -/
def HttpServer.text (this : HttpServer) (req : HttpRequest) : Bytes := (this.respond req).dump

/-- A socket that has received a request and taken `part` of the response to it. -/
def Client.next (c : Client) (hooked : Bool) (results : List Bytes) (part : Bytes) : Client :=
  ⟨⟨false, results⟩, behindAnswer hooked c.outcomes, c.accepted ++ part⟩

/-- How a run of the loop begins: there is no request, or one that is answered. -/
inductive Round (M : Machine) (lexical_cast : Bytes → Option UInt64) (hooked : Bool)
    (this : HttpServer) (u : Uninit buff_size) (us : List (Uninit buff_size)) (c : Client) :
    List HttpRequest → Client → Bool → Prop
  | stop {session : Session}
      (hrecv : recvRequest M lexical_cast u c.toSession = some (.nullptr, session)) :
      Round M lexical_cast hooked this u us c [] (c.received session).close false
  | throw {session : Session}
      (hrecv : recvRequest M lexical_cast u c.toSession = some (.exception, session)) :
      Round M lexical_cast hooked this u us c [] (c.received session) true
  | last {req : HttpRequest} {results : List Bytes} {o : SendOutcome} {n : Int} {part : Bytes}
      (hrecv : recvRequest M lexical_cast u c.toSession = some (.request req, ⟨false, results⟩))
      (ho : answer hooked c.outcomes = some o) (hpart : o.result (this.text req) = some (n, part))
      (hcloses : this.closes req = true) :
      Round M lexical_cast hooked this u us c [req] (c.next hooked results part).close false
  | next {req : HttpRequest} {results : List Bytes} {o : SendOutcome} {n : Int} {part : Bytes}
      {reqs : List HttpRequest} {c' : Client} {thrown : Bool}
      (hrecv : recvRequest M lexical_cast u c.toSession = some (.request req, ⟨false, results⟩))
      (ho : answer hooked c.outcomes = some o) (hpart : o.result (this.text req) = some (n, part))
      (hcloses : this.closes req = false)
      (hrest : this.handleClient M lexical_cast hooked us (c.next hooked results part) =
        some (reqs, c', thrown)) :
      Round M lexical_cast hooked this u us c (req :: reqs) c' thrown

/-- **Step.** Every run of the loop begins in one of these ways. -/
theorem handleClient_cases
    (h : this.handleClient M lexical_cast hooked (u :: us) c = some (reqs, c', thrown)) :
    Round M lexical_cast hooked this u us c reqs c' thrown := by
  rw [HttpServer.handleClient] at h
  obtain ⟨⟨result, session⟩, hrecv, h⟩ := Option.bind_eq_some_iff.mp h
  cases result with
  | nullptr => cases h; exact .stop hrecv
  | exception => cases h; exact .throw hrecv
  | request req =>
    obtain ⟨closed, results⟩ := session
    obtain rfl : closed = false := (recvRequest_nonzero hrecv).1
    obtain ⟨⟨rt, r⟩, hsend, h⟩ := Option.bind_eq_some_iff.mp h
    rw [sendResponse_eq (by rfl)] at hsend
    obtain ⟨o, ho, hsend⟩ := Option.bind_eq_some_iff.mp hsend
    obtain ⟨⟨n, part⟩, hpart, hsend⟩ := Option.map_eq_some_iff.mp hsend
    cases hsend
    cases hcloses : this.closes req with
    | true =>
      simp only [hcloses, if_true] at h
      cases h
      exact .last hrecv ho hpart hcloses
    | false =>
      simp only [hcloses, Bool.false_eq_true, if_false] at h
      obtain ⟨⟨reqs', c'', thrown'⟩, hrest, h⟩ := Option.map_eq_some_iff.mp h
      cases h
      exact .next hrecv ho hpart hcloses hrest

/-! ### The requests that are answered -/

/-- The requests that are answered, by the results of successive calls of `recvRequest`: those
    before the first one that is no request, or up to the first one behind which the server
    closes. -/
inductive Served (closes : HttpRequest → Bool) : List Result → List HttpRequest → Bool → Prop
  | stop : Served closes [.nullptr] [] false
  | throw : Served closes [.exception] [] true
  | last {req : HttpRequest} (h : closes req = true) : Served closes [.request req] [req] false
  | next {req : HttpRequest} {results : List Result} {reqs : List HttpRequest} {thrown : Bool}
      (h : closes req = false) (hrest : Served closes results reqs thrown) :
      Served closes (.request req :: results) (req :: reqs) thrown

/-- The server closes behind no request but the last one. -/
theorem Served.dropLast {closes : HttpRequest → Bool} {results : List Result}
    (h : Served closes results reqs thrown) : ∀ req ∈ reqs.dropLast, closes req = false := by
  induction h with
  | stop | throw | last => simp
  | @next req results reqs thrown h hrest ih =>
    intro req' hreq
    cases reqs with
    | nil => exact absurd hreq List.not_mem_nil
    | cons req₀ reqs =>
      rw [List.dropLast_cons_cons] at hreq
      rcases List.mem_cons.mp hreq with rfl | hreq
      · exact h
      · exact ih req' hreq

/-- One more call in front. -/
theorem recvRequests_cons_of {result : Result} {results : List Result} {session session' : Session}
    {s : Session} (h : recvRequest M lexical_cast u s = some (result, session))
    (hrest : recvRequests M lexical_cast us session = some (results, session')) :
    recvRequests M lexical_cast (u :: us) s = some (result :: results, session') := by
  rw [recvRequests, h, Option.bind_some, hrest, Option.map_some]

/-- **Run.** The loop answers what successive calls of `recvRequest` return, and closes the
    socket. -/
theorem handleClient_served
    (h : this.handleClient M lexical_cast hooked us c = some (reqs, c', thrown)) :
    (thrown = false → c'.closed = true) ∧ ∃ us' results session, us' <+: us ∧
      recvRequests M lexical_cast us' c.toSession = some (results, session) ∧
      Served this.closes results reqs thrown := by
  induction us generalizing c reqs with
  | nil => cases h
  | cons u us ih =>
    have hfirst : [u] <+: u :: us := ⟨us, rfl⟩
    cases handleClient_cases h with
    | @stop session hrecv =>
      exact ⟨fun _ => rfl, [u], _, session, hfirst, recvRequests_cons_of hrecv rfl, .stop⟩
    | @throw session hrecv =>
      exact ⟨by simp, [u], _, session, hfirst, recvRequests_cons_of hrecv rfl, .throw⟩
    | last hrecv ho hpart hcloses =>
      exact ⟨fun _ => rfl, [u], _, _, hfirst, recvRequests_cons_of hrecv rfl, .last hcloses⟩
    | next hrecv ho hpart hcloses hrest =>
      obtain ⟨hclosed, us', results, session, hus, hcalls, hserved⟩ := ih hrest
      refine ⟨hclosed, u :: us', _, session, ?_, recvRequests_cons_of hrecv hcalls,
        .next hcloses hserved⟩
      exact List.cons_prefix_cons.mpr ⟨rfl, hus⟩

/-! ### What the client gets -/

theorem text_ne_nil (req : HttpRequest) : this.text req ≠ [] := by
  intro h
  have hversion : dumpVersion (this.respond req).m_version = [] := by
    simp only [HttpServer.text, HttpResponse.dump, List.append_eq_nil_iff] at h
    simp only [h]
  simp only [dumpVersion, List.append_eq_nil_iff] at hversion
  exact absurd hversion.1.1.1 (by decide)

/-- Fronts of texts that make up the texts together are the whole texts. -/
theorem eq_of_prefixes {α : Type} {xs ys : List (List α)} (h : List.Forall₂ (· <+: ·) xs ys)
    (hflat : xs.flatten = ys.flatten) : xs = ys := by
  have hle : ∀ {xs ys : List (List α)}, List.Forall₂ (· <+: ·) xs ys →
      xs.flatten.length ≤ ys.flatten.length := by
    intro xs ys h
    induction h with
    | nil => exact le_rfl
    | cons hx _ ih =>
      rw [List.flatten_cons, List.flatten_cons, List.length_append, List.length_append]
      exact Nat.add_le_add hx.length_le ih
  induction h with
  | nil => rfl
  | @cons x y xs ys hx hrest ih =>
    rw [List.flatten_cons, List.flatten_cons] at hflat
    have hlen := congrArg List.length hflat
    rw [List.length_append, List.length_append] at hlen
    have hxy : x = y := hx.eq_of_length (by have := hx.length_le; have := hle hrest; omega)
    rw [hxy, List.append_cancel_left_eq] at hflat
    rw [hxy, ih hflat]

/-- **Run.** The socket takes a front of each response, in their order. -/
theorem handleClient_parts
    (h : this.handleClient M lexical_cast hooked us c = some (reqs, c', thrown)) :
    ∃ parts, c'.accepted = c.accepted ++ parts.flatten ∧
      List.Forall₂ (· <+: ·) parts (reqs.map this.text) ∧
      (parts = reqs.map this.text ↔ WhollyTaken hooked (reqs.map this.text) c.outcomes) := by
  induction us generalizing c reqs with
  | nil => cases h
  | cons u us ih =>
    cases handleClient_cases h with
    | stop | throw => exact ⟨[], (List.append_nil _).symm, .nil, iff_of_true rfl trivial⟩
    | @last req results o n part hrecv ho hpart hcloses =>
      refine ⟨[part], by simp [Client.next, Client.close], ?_, ?_⟩
      · exact .cons (SendOutcome.result_prefix hpart) .nil
      · rw [List.map_singleton, WhollyTaken, ho, Option.some.injEq,
          ← SendOutcome.result_whole (text_ne_nil req) hpart]
        simp [WhollyTaken]
    | @next req results o n part reqs c' thrown hrecv ho hpart hcloses hrest =>
      obtain ⟨parts, hacc, hfronts, hwhole⟩ := ih hrest
      refine ⟨part :: parts, ?_, .cons (SendOutcome.result_prefix hpart) hfronts, ?_⟩
      · rw [hacc, List.flatten_cons, ← List.append_assoc]
        rfl
      · rw [List.map_cons, WhollyTaken, ho, Option.some.injEq, List.cons.injEq,
          SendOutcome.result_whole (text_ne_nil req) hpart, hwhole]
        rfl

/-- **What the client gets** are the responses to its requests, in their order and nothing else,
    exactly if each of them is taken by one call of `send`: what is left of a response is never
    sent, and the next response follows all the same. -/
theorem handleClient_wholly_iff
    (h : this.handleClient M lexical_cast hooked us c = some (reqs, c', thrown)) :
    c'.accepted = c.accepted ++ (reqs.map this.text).flatten ↔
      WhollyTaken hooked (reqs.map this.text) c.outcomes := by
  obtain ⟨parts, hacc, hfronts, hwhole⟩ := handleClient_parts h
  rw [← hwhole, hacc, List.append_cancel_left_eq]
  exact ⟨eq_of_prefixes hfronts, fun h => h ▸ rfl⟩

/-- What is left of the first response is not sent. -/
theorem handleClient_wholly_iff_cut :
    (Table.ended (chars "H" ++ (Table.server.respond .new).dump)).accepted ≠ Table.texts.flatten ∧
      ((Table.ended (chars "H" ++ (Table.server.respond .new).dump)).accepted =
          [] ++ Table.texts.flatten ↔
        WhollyTaken true Table.texts
          [.accepts 1, .accepts (Table.server.respond .new).dump.length]) :=
  ⟨by decide +kernel, handleClient_wholly_iff Table.handleClient_cut⟩

/-! ### What the client reads -/

/-- The responses of this server have the end that their header says. -/
theorem framed_text (hname : Plain this.m_name) (req : HttpRequest) :
    Framed (this.text req) (this.closes req) page := by
  have hserver : strcasecmp (chars "Server") (chars "connection") ≠ .eq ∧ Plain (chars "Server") ∧
      58 ∉ chars "Server" ∧ (chars "Server").map tolower = chars "server" := by decide
  have hvalues : chars "server" ≠ chars "connection" ∧
      chars "server" ≠ chars "content-length" := by decide
  have hheaders : (this.respond req).m_headers = [(chars "Server", this.m_name)] := rfl
  have hclose : (this.respond req).m_close = this.closes req := Bool.or_comm _ _
  have hbody : (this.respond req).m_body = page := by rw [HttpServer.respond]
  have hpage : page ≠ [] := by decide +kernel
  have hlines : (this.respond req).own = [chars "Server" ++ chars ": " ++ this.m_name] := by
    rw [HttpResponse.own, hheaders, headerLines, List.filter_cons_of_pos (by simpa using hserver.1)]
    rfl
  have htexts : (this.respond req).PlainTexts := by
    refine ⟨fun i hi => ?_, fun i hi => absurd hi List.not_mem_nil⟩
    rw [hheaders] at hi
    rw [List.mem_singleton.mp hi]
    exact ⟨hserver.2.1, hname⟩
  have hws : (this.respond req).m_websocket = false := rfl
  rw [HttpServer.text, ← hclose, ← hbody]
  refine (HttpResponse.framed_iff_framable hws htexts).mpr ⟨?_, ?_, fun _ => ?_, ?_⟩
  · have hreason : (this.respond req).m_reason = [] := rfl
    rw [hreason, further_eq_nil List.not_mem_nil]
    exact List.not_mem_nil
  · rw [hlines, values_line hserver.2.2.1, hserver.2.2.2, if_neg hvalues.1]
  · rw [hlines, values_line hserver.2.2.1, hserver.2.2.2, if_neg hvalues.2]
  · intro hempty
    exact absurd (hbody.symm.trans hempty) hpage

/-- A client reads a response: the head, and as many bytes as that says. It gets what the
    `connection` header says and the body. -/
def readResponse (text : Bytes) : Option ((List Bytes × Bytes) × Bytes) :=
  (head 13 10 [] text).bind fun h =>
    match values (chars "content-length") h.1.tail with
    | [v] => (number v).bind fun n =>
      if h.2.length < n then none
      else some ((values (chars "connection") h.1.tail, h.2.take n), h.2.drop n)
    | _ => none

/-- So many responses, one after the other. -/
def readResponses : Nat → Bytes → Option (List (List Bytes × Bytes) × Bytes)
  | 0, text => some ([], text)
  | n + 1, text =>
    (readResponse text).bind fun r => (readResponses n r.2).map fun r' => (r.1 :: r'.1, r'.2)

/-- What the `connection` header says. -/
def connectionValue (close : Bool) : List Bytes :=
  [if close then chars "close" else chars "keep-alive"]

theorem readResponse_of_framed {text body : Bytes} {close : Bool} (h : Framed text close body)
    (more : Bytes) : readResponse (text ++ more) = some ((connectionValue close, body), more) := by
  obtain ⟨start, ls, hhead, hclose, v, hv, hnumber⟩ := h
  rw [readResponse, head_more more hhead, Option.bind_some]
  simp only [List.tail_cons, hv, hnumber, Option.bind_some, hclose]
  rw [if_neg (by rw [List.length_append]; omega), List.take_left, List.drop_left]
  rfl

theorem readResponses_texts (hname : Plain this.m_name) (reqs : List HttpRequest) :
    readResponses reqs.length (reqs.map this.text).flatten =
      some (reqs.map fun req => (connectionValue (this.closes req), page), []) := by
  induction reqs with
  | nil => rfl
  | cons req reqs ih =>
    rw [List.length_cons, List.map_cons, List.flatten_cons, readResponses,
      readResponse_of_framed (framed_text hname req), Option.bind_some, ih, Option.map_some]
    rfl

/-- **What the client reads.** When the socket takes each response at once, a client that reads the
    responses by their length finds one for each of its requests that is answered, each with the
    page and nothing in between; and exactly the one behind which the server closes says `close`, so
    that all of them but the last say `keep-alive`. -/
theorem handleClient_read (hname : Plain this.m_name) (hc : c.accepted = [])
    (h : this.handleClient M lexical_cast hooked us c = some (reqs, c', thrown))
    (hwhole : WhollyTaken hooked (reqs.map this.text) c.outcomes) :
    readResponses reqs.length c'.accepted =
        some (reqs.map fun req => (connectionValue (this.closes req), page), []) ∧
      (∀ req ∈ reqs.dropLast, this.closes req = false) ∧
      ∃ us' results session, us' <+: us ∧
        recvRequests M lexical_cast us' c.toSession = some (results, session) ∧
        Served this.closes results reqs thrown := by
  obtain ⟨parts, hacc, hfronts, hparts⟩ := handleClient_parts h
  obtain ⟨hclosed, us', results, session, hus, hcalls, hserved⟩ := handleClient_served h
  rw [hacc, hc, List.nil_append, hparts.mpr hwhole]
  exact ⟨readResponses_texts hname reqs, hserved.dropLast, us', results, session, hus, hcalls,
    hserved⟩

/-- The first response says `keep-alive`, the second one `close`. -/
theorem handleClient_read_whole : readResponses 2 Table.texts.flatten =
    some ([([chars "keep-alive"], page), ([chars "close"], page)], []) := by
  refine (handleClient_read ?_ rfl Table.handleClient_whole ?_).1
  · decide +kernel
  · exact ⟨by decide +kernel, by decide +kernel, trivial⟩

/-! ### How long the loop goes on -/

end Loop

end LimWebserver.Http
