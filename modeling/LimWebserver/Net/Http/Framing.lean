import LimWebserver.Net.Http.Tokens

namespace LimWebserver.Http

open Lib.Lines

/-!
# Http — the framing of messages

`HttpResponse::dump` leaves a `connection` of the map out, but not a `content-length`, and makes
none for an empty body; `HttpRequest::dump` makes one besides that of the request that has been
received.

* `ownLines`, `FramableRequest` — the lines of the headers of a request, and the condition;
* `values_own` — the `content-length` that a received request with a body has;
* `framedRequest_iff_framable` — a received request is framed exactly under the condition, which is
  that it has no body if its names have no line ends (`framableRequest_iff`);
* `dump_not_framed` — a response and a request that are not framed; `framing_iff` — all of them.
-/

/-- The lines of the headers in a map. A name may have line ends in it. -/
def ownLines (m : MapType) : List Bytes := allLines 13 10 (headerLines m)

/-- **The condition.** Up to an empty line in a name the headers have no `connection` and at most
    one `content-length`, and without such a line the body is empty. -/
structure FramableRequest (q : HttpRequest) : Prop where
  connection : values (chars "connection") ((ownLines q.m_headers).takeWhile (· ≠ [])) = []
  length :
    (values (chars "content-length") ((ownLines q.m_headers).takeWhile (· ≠ []))).length ≤ 1
  body : [] ∉ ownLines q.m_headers → q.m_body = []

section

variable {m : MapType} {name key val : Bytes} {q : HttpRequest}

theorem not_mem_of_isText {text : Bytes} (h : ∀ b ∈ text, isText b = true) : 13 ∉ text :=
  fun hmem => absurd (h 13 hmem) (by decide)

/-- What a header name does not have in it. -/
theorem not_mem_of_isName {text : Bytes} (h : ∀ b ∈ text, isName b = true) :
    58 ∉ text ∧ 0 ∉ text :=
  ⟨fun hmem => absurd (h 58 hmem) (by decide), fun hmem => absurd (h 0 hmem) (by decide)⟩

/-- The values of a name other than `connection`, which is left out. -/
theorem values_headerLines (hnames : ∀ i ∈ m, ∀ b ∈ i.1, isName b = true)
    (hname : name ≠ chars "connection") : values name (headerLines m) =
      (m.filter fun i => fold i.1 = name).map fun i => strip i.2 := by
  induction m with
  | nil => rfl
  | cons i m ih =>
    obtain ⟨hcolon, hzero⟩ := not_mem_of_isName (hnames i List.mem_cons_self)
    replace ih := ih fun i hi => hnames i (List.mem_cons_of_mem _ hi)
    by_cases hconn : strcasecmp i.1 (chars "connection") = .eq
    · have hfold : fold i.1 ≠ name := by
        rw [strcasecmp_eq_iff.mp hconn]
        exact Ne.symm hname
      rw [headerLines, List.filter_cons_of_neg (by simp [hconn]), ← headerLines, ih,
        List.filter_cons_of_neg (by simp [hfold])]
    · rw [headerLines, List.filter_cons_of_pos (by simp [hconn]), List.map_cons, values_cons,
        ← headerLines, ih, values_line hcolon, ← fold_of_not_mem hzero]
      by_cases hfold : fold i.1 = name
      · rw [if_pos hfold, List.filter_cons_of_pos (by simp [hfold]), List.map_cons]
        rfl
      · rw [if_neg hfold, List.filter_cons_of_neg (by simp [hfold])]
        rfl

/-- No header line is a `connection`. -/
theorem values_connection (hnames : ∀ i ∈ m, ∀ b ∈ i.1, isName b = true) :
    values (chars "connection") (headerLines m) = [] := by
  induction m with
  | nil => rfl
  | cons i m ih =>
    obtain ⟨hcolon, hzero⟩ := not_mem_of_isName (hnames i List.mem_cons_self)
    replace ih := ih fun i hi => hnames i (List.mem_cons_of_mem _ hi)
    by_cases hconn : strcasecmp i.1 (chars "connection") = .eq
    · rw [headerLines, List.filter_cons_of_neg (by simp [hconn]), ← headerLines, ih]
    · have hfold : i.1.map tolower ≠ chars "connection" := by
        intro heq
        apply hconn
        rw [strcasecmp_eq_iff, fold_of_not_mem hzero, heq]
        decide
      rw [headerLines, List.filter_cons_of_pos (by simp [hconn]), List.map_cons, values_cons,
        ← headerLines, ih, values_line hcolon, if_neg hfold]
      rfl

/-- Of the keys of a map at most one is a name. -/
theorem length_filter_le (h : MapType.Sorted m) (name : Bytes) :
    (m.filter fun i => fold i.1 = name).length ≤ 1 := by
  have hsorted : MapType.Sorted (m.filter fun i => fold i.1 = name) := h.sublist List.filter_sublist
  have hfold : ∀ i ∈ m.filter fun i => fold i.1 = name, fold i.1 = name := by
    intro i hi
    simpa using (List.mem_filter.mp hi).2
  generalize m.filter (fun i => fold i.1 = name) = ls at hsorted hfold ⊢
  cases ls with
  | nil => exact Nat.zero_le 1
  | cons i ls =>
    cases ls with
    | nil => exact Nat.le_refl 1
    | cons i' ls =>
      have hlt := (List.pairwise_cons.mp hsorted).1 i' List.mem_cons_self
      have heq : strcasecmp i.1 i'.1 = .eq := strcasecmp_eq_iff.mpr
        ((hfold i List.mem_cons_self).trans (hfold i' (by simp)).symm)
      cases hlt.symm.trans heq

/-! ### Requests -/

/-- The request line. -/
def WholeRequest.startText (q : WholeRequest) : Bytes :=
  httpMethodToString q.m_method ++ chars " " ++ q.m_path ++
    (if q.m_query = [] then [] else chars "?") ++ q.m_query ++
    (if q.m_fragment = [] then [] else chars "#") ++ q.m_fragment ++ chars " " ++
    dumpVersion q.m_version

theorem not_mem_httpMethodToString (m : HttpMethod) : 13 ∉ httpMethodToString m := by
  have htable : ∀ e ∈ httpMethodMap, 13 ∉ e.2 := by decide +kernel
  unfold httpMethodToString
  split
  case h_1 e he => exact htable e (List.mem_of_find?_eq_some he)
  case h_2 => decide

theorem not_mem_startText (h : Tidy q) : 13 ∉ (received q).startText := by
  have htexts : 13 ∉ chars " " ∧ 13 ∉ chars "?" ∧ 13 ∉ chars "#" := by decide
  have hquery : 13 ∉ if q.m_query = [] then [] else chars "?" := by
    split_ifs
    · exact List.not_mem_nil
    · exact htexts.2.1
  have hfragment : 13 ∉ if q.m_fragment = [] then [] else chars "#" := by
    split_ifs
    · exact List.not_mem_nil
    · exact htexts.2.2
  simp only [WholeRequest.startText, received, List.mem_append, not_or]
  exact ⟨⟨⟨⟨⟨⟨⟨⟨not_mem_httpMethodToString _, htexts.1⟩, not_mem_of_isText h.path⟩, hquery⟩,
    not_mem_of_isText h.query⟩, hfragment⟩, not_mem_of_isText h.fragment⟩, htexts.1⟩,
    not_mem_dumpVersion _⟩

theorem startText_ne_nil (q : WholeRequest) : q.startText ≠ [] := by
  intro hnil
  have hversion := (List.append_eq_nil_iff.mp hnil).2
  have hlabel := (List.append_eq_nil_iff.mp (List.append_eq_nil_iff.mp
    (List.append_eq_nil_iff.mp hversion).1).1).1
  exact absurd hlabel (by decide)

/-- The texts of a received request. -/
def receivedTexts (q : HttpRequest) : List Bytes :=
  [(received q).startText, connectionLine q.m_close] ++ headerLines q.m_headers ++
    lengthLines q.m_body

theorem dump_received (q : HttpRequest) :
    (received q).dump = unlines 13 10 (receivedTexts q) ++ 13 :: 10 :: q.m_body := by
  have hconn := dumpConnection_eq q.m_close
  rw [unlines_cons, unlines_nil] at hconn
  rw [receivedTexts, unlines_append, unlines_append, ← dumpHeaders_eq, List.append_assoc,
    ← dumpBody_eq, unlines_cons, unlines_cons, unlines_nil, ← hconn]
  simp only [WholeRequest.dump, WholeRequest.startText, received, crlf, List.append_assoc,
    List.cons_append, List.nil_append]

theorem allLines_received (h : Tidy q) : allLines 13 10 (receivedTexts q) =
    (received q).startText :: connectionLine q.m_close ::
      (ownLines q.m_headers ++ lengthLines q.m_body) := by
  have hlen : allLines 13 10 (lengthLines q.m_body) = lengthLines q.m_body :=
    allLines_eq fun l hl => (lengthLines_ok _ l hl).2
  rw [receivedTexts, allLines_append, allLines_append, hlen, allLines_cons, allLines_cons,
    lines_eq (not_mem_startText h), lines_eq (connectionLine_ok _).2, ownLines]
  rfl

/-- Where a receiver sees an empty line. -/
theorem mem_allLines_received (h : Tidy q) :
    [] ∈ allLines 13 10 (receivedTexts q) ↔ [] ∈ ownLines q.m_headers := by
  rw [allLines_received h]
  simp only [List.mem_cons, List.mem_append]
  constructor
  · rintro (hstart | hconn | hown | hlen)
    · exact absurd hstart.symm (startText_ne_nil _)
    · exact absurd hconn.symm (connectionLine_ok _).1
    · exact hown
    · exact absurd rfl (lengthLines_ok _ _ hlen).1
  · exact fun hown => .inr (.inr (.inl hown))

/-- The header lines that a receiver sees. -/
def seenLines (q : HttpRequest) : List Bytes :=
  connectionLine q.m_close :: ((ownLines q.m_headers).takeWhile (· ≠ []) ++
    if [] ∈ ownLines q.m_headers then [] else lengthLines q.m_body)

/-- **The head of a received request.** -/
theorem head_received (h : Tidy q) : ∃ body, head 13 10 [] (received q).dump =
    some ((received q).startText :: seenLines q, body) := by
  have hmem := mem_allLines_received h
  have hlines := allLines_received h
  rw [dump_received, seenLines]
  by_cases hown : [] ∈ ownLines q.m_headers
  · obtain ⟨body, hhead⟩ := head_unlines_empty (show (13 : UInt8) ≠ 10 by decide)
      (13 :: 10 :: q.m_body) (hmem.mpr hown)
    refine ⟨body ++ 13 :: 10 :: q.m_body, ?_⟩
    rw [hhead, hlines, if_pos hown, List.append_nil,
      List.takeWhile_cons_of_pos (by simpa using startText_ne_nil _),
      List.takeWhile_cons_of_pos (by simpa using (connectionLine_ok _).1),
      takeWhile_append_of_mem hown]
  · have hall := takeWhile_of_not_mem hown
    refine ⟨q.m_body, ?_⟩
    rw [head_unlines (by decide) (mt hmem.mp hown), hlines, if_neg hown, hall, head_end,
      Option.map_some, List.append_nil]

/-- The `content-length` of the map is one of its header lines. -/
theorem values_own (h : Tidy q)
    (hval : MapType.get q.m_headers (chars "content-length") = some val) :
    1 ≤ (values (chars "content-length") (ownLines q.m_headers)).length := by
  obtain ⟨key, hmem, hfold⟩ := MapType.mem_of_get hval
  obtain ⟨hcolon, hzero⟩ := not_mem_of_isName (h.names _ hmem)
  have hlower : fold (chars "content-length") = chars "content-length" := by decide
  have hkey : key.map tolower = chars "content-length" := by
    rw [← fold_of_not_mem hzero, hfold, hlower]
  -- so the name is one line, and is not left out
  have hend : 13 ∉ key := by
    intro h13
    have h13' : tolower 13 ∈ key.map tolower := List.mem_map_of_mem h13
    rw [hkey] at h13'
    exact absurd h13' (by decide)
  have hconn : strcasecmp key (chars "connection") ≠ .eq := by
    rw [ne_eq, strcasecmp_eq_iff, hfold]
    decide
  have hline : key ++ chars ": " ++ val ∈ headerLines q.m_headers := by
    refine List.mem_map.mpr ⟨(key, val), List.mem_filter.mpr ⟨hmem, ?_⟩, rfl⟩
    simpa using hconn
  have hown : key ++ chars ": " ++ val ∈ ownLines q.m_headers := by
    refine List.mem_flatMap.mpr ⟨_, hline, ?_⟩
    rw [lines_eq (line_ok hend (not_mem_of_isText (h.headers _ hmem))).2, List.nil_append]
    exact List.mem_singleton_self _
  obtain ⟨before, behind, hsplit⟩ := List.append_of_mem hown
  rw [hsplit, values_append, values_cons, values_line hcolon, if_pos hkey]
  simp only [List.length_append, List.length_singleton]
  omega

/-- **Requests.** The `content-length` that has been received is sent again, besides the one that is
    made. -/
theorem framedRequest_iff_framable (h : Tidy q) (hbody : q.m_body ≠ [] →
      ∃ val, MapType.get q.m_headers (chars "content-length") = some val) :
    FramedRequest (received q).dump ↔ FramableRequest q := by
  obtain ⟨hconn, hlen⟩ := values_connectionLine q.m_close
  obtain ⟨hconn', hlen'⟩ := values_lengthLines q.m_body
  obtain ⟨rest, hhead⟩ := head_received h
  have hseen : values (chars "connection") (seenLines q) =
      [if q.m_close then chars "close" else chars "keep-alive"] ++
        values (chars "connection") ((ownLines q.m_headers).takeWhile (· ≠ [])) := by
    rw [seenLines, values_cons, hconn, values_append]
    split_ifs <;> simp [hconn']
  have hseen' : values (chars "content-length") (seenLines q) =
      values (chars "content-length") ((ownLines q.m_headers).takeWhile (· ≠ [])) ++
        if [] ∉ ownLines q.m_headers ∧ q.m_body ≠ [] then [printed q.m_body.length] else [] := by
    rw [seenLines, values_cons, hlen, List.nil_append, values_append]
    by_cases hown : [] ∈ ownLines q.m_headers
    · rw [if_pos hown, if_neg fun h0 => h0.1 hown, values_nil]
    · rw [if_neg hown, hlen']
      simp only [hown, not_false_eq_true, true_and]
  constructor
  · rintro ⟨start, ls, rest', hhead', hone, hatmost⟩
    rw [hhead] at hhead'
    obtain ⟨-, rfl⟩ := List.cons.inj (Prod.mk.inj (Option.some.inj hhead')).1
    rw [hseen, List.length_append, List.length_singleton] at hone
    rw [hseen', List.length_append] at hatmost
    refine ⟨List.eq_nil_of_length_eq_zero (by omega), by omega, fun hown => ?_⟩
    by_contra hne
    obtain ⟨val, hval⟩ := hbody hne
    have hall := takeWhile_of_not_mem hown
    have hpos := values_own h hval
    rw [hall, if_pos ⟨hown, hne⟩, List.length_singleton] at hatmost
    omega
  · intro hq
    refine ⟨_, _, rest, hhead, ?_, ?_⟩
    · rw [hseen, hq.connection]
      rfl
    · rw [hseen', if_neg fun h0 => h0.2 (hq.body h0.1), List.append_nil]
      exact hq.length

/-- Without line ends in the names the condition is that there is no body. -/
theorem framableRequest_iff (h : Tidy q) (hnames : ∀ i ∈ q.m_headers, 13 ∉ i.1) :
    FramableRequest q ↔ q.m_body = [] := by
  have hok := headerLines_ok fun i hi => ⟨hnames i hi, not_mem_of_isText (h.headers i hi)⟩
  have hown : ownLines q.m_headers = headerLines q.m_headers := allLines_eq fun l hl => (hok l hl).2
  have hempty : [] ∉ ownLines q.m_headers := by
    rw [hown]
    exact fun hmem => (hok [] hmem).1 rfl
  have hall := takeWhile_of_not_mem hempty
  constructor
  · exact fun hq => hq.body hempty
  · intro hbody
    refine ⟨?_, ?_, fun _ => hbody⟩
    · rw [hall, hown, values_connection h.names]
    · rw [hall, hown, values_headerLines h.names (by decide), List.length_map]
      exact length_filter_le h.sorted _

end

namespace Table

theorem isName_of_token {b : UInt8} (h : token b = true) : isName b = true := by
  unfold token at h
  unfold isName
  grind

/-- Which tokens are clean in a state. -/
def CleanAt (cs : Nat) (k : Clean) : Prop :=
  (cs = 33 ∨ cs = 16 → k.mark = true) ∧ (cs = 14 → k.field_start = true) ∧
    (cs = 15 ∨ cs = 16 → k.field = true)

theorem cleanAt_next {cs : Nat} {k : Clean} {b : UInt8} (h : CleanAt cs k)
    (hne : (next cs b).1 ≠ 0) :
    ∃ k', Clean.acts (next cs b).2 k = some k' ∧ CleanAt (next cs b).1 (k'.take b) := by
  have hname := @isName_of_token b
  unfold CleanAt at h ⊢
  unfold next at hne ⊢
  split <;> (try split_ifs) <;>
    simp_all [Clean.acts, Clean.act, Clean.take, isText]

/-- The part of the table is one of `http11_parser.rl`. -/
theorem lexical : Lexical machine := by
  have hwalk : ∀ (bytes : Bytes) (cs : Nat) (k : Clean), CleanAt cs k →
      Clean.walk machine cs k bytes = true := by
    intro bytes
    induction bytes with
    | nil => exact fun _ _ _ => rfl
    | cons b bytes ih =>
      intro cs k h
      rw [Clean.walk]
      split_ifs with herr
      · rfl
      · obtain ⟨k', hk', hclean⟩ := cleanAt_next h herr
        replace hk' : Clean.acts (machine.next cs b).2 k = some k' := hk'
        rw [hk']
        have hrest : Clean.walk machine (machine.next cs b).1 (k'.take b) bytes = true :=
          ih _ _ hclean
        show (_ || _) = true
        rw [hrest, Bool.or_true]
  intro bytes
  apply hwalk
  exact ⟨fun _ => rfl, fun _ => rfl, fun _ => rfl⟩

end Table

/-- **Messages that are not framed.** A response that keeps the connection alive says nothing about
    its empty body, and a request with four bytes says twice that it has them. -/
theorem dump_not_framed :
    (¬ ∀ r : HttpResponse, r.m_websocket = false → r.PlainTexts →
      Framed r.dump r.m_close r.m_body) ∧
    ¬ ∀ (M : Machine) (lexical_cast : Bytes → Option UInt64) (buff_size : Nat)
      (u : Uninit buff_size) (session session' : Session) (q : HttpRequest), Lexical M →
        recvRequest M lexical_cast u session = some (.request q, session') →
          FramedRequest (received q).dump := by
  constructor
  · intro h
    have htexts : (HttpResponse.new 0x11 false).PlainTexts :=
      ⟨fun _ hi => absurd hi List.not_mem_nil, fun _ hi => absurd hi List.not_mem_nil⟩
    have hframable := (HttpResponse.framed_iff_framable rfl htexts).mp (h _ rfl htexts)
    obtain ⟨v, hv, -⟩ := hframable.empty rfl
    cases hv
  · intro h
    have hcall : recvRequest Table.machine Table.decimal Table.zeros
        ⟨false, [Table.header ++ chars "abcd"]⟩ = some (.request ⟨.GET, 0x11, true, chars "/", [],
          [], chars "abcd", [(chars "Content-Length", chars "4")]⟩, ⟨false, []⟩) := by
      decide +kernel
    obtain ⟨htidy, hbody⟩ := recvRequest_tidy Table.lexical hcall
    have hframed := h _ _ _ _ _ _ _ Table.lexical hcall
    have hframable := (framedRequest_iff_framable htidy hbody).mp hframed
    exact absurd (hframable.body (by decide)) (by decide)

/-- **The framing.** A response is framed exactly if its map has the `content-length` that `dump`
    does not make, and none that it makes, and nothing else in it is read as one of the two headers;
    a request that has been received is framed exactly if it has no body, and nothing in the names
    of its headers is read as one. -/
theorem framing_iff (r : HttpResponse) (M : Machine) (lexical_cast : Bytes → Option UInt64)
    {buff_size : Nat} (u : Uninit buff_size) (session session' : Session) (q : HttpRequest) :
    (r.m_websocket = false → r.PlainTexts →
      (Framed r.dump r.m_close r.m_body ↔ r.Framable)) ∧
    (Lexical M → recvRequest M lexical_cast u session = some (.request q, session') →
      (FramedRequest (received q).dump ↔ FramableRequest q)) := by
  constructor
  · intro hws htexts
    exact HttpResponse.framed_iff_framable hws htexts
  · intro hM hcall
    obtain ⟨htidy, hbody⟩ := recvRequest_tidy hM hcall
    exact framedRequest_iff_framable htidy hbody

/-- A response with a body and a request without one. -/
theorem framing_iff_body :
    Framed { HttpResponse.new 0x11 true with m_body := chars "hello" }.dump true (chars "hello") ∧
      recvRequest Table.machine Table.decimal Table.zeros
          ⟨false, [chars "GET / HTTP/1.1\r\n\r\n"]⟩ = some (.request .new, ⟨false, []⟩) ∧
      FramedRequest (received .new).dump := by
  have hcall : recvRequest Table.machine Table.decimal Table.zeros
      ⟨false, [chars "GET / HTTP/1.1\r\n\r\n"]⟩ = some (.request .new, ⟨false, []⟩) := by
    decide +kernel
  obtain ⟨hresponse, hrequest⟩ := framing_iff
    { HttpResponse.new 0x11 true with m_body := chars "hello" } Table.machine Table.decimal
    Table.zeros ⟨false, [chars "GET / HTTP/1.1\r\n\r\n"]⟩ ⟨false, []⟩ .new
  refine ⟨(hresponse rfl ⟨?_, ?_⟩).mpr ?_, hcall, (hrequest Table.lexical hcall).mpr ?_⟩
  · exact fun _ hi => absurd hi List.not_mem_nil
  · exact fun _ hi => absurd hi List.not_mem_nil
  · exact ⟨by decide, by decide, fun _ => by decide, fun h => absurd h (by decide)⟩
  · exact ⟨by decide, by decide, fun _ => rfl⟩

end LimWebserver.Http
