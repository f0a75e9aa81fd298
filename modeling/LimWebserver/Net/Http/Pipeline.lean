import LimWebserver.Net.Http.Table

namespace LimWebserver.Http

open HttpRequestParser

/-!
# Http — several requests on one connection

* `Message`, `stream` — well-formed requests with their bodies, and their bytes on the connection;
* `Inside`, `HeadersInside` — every header lies in one result of `resv`;
* `Packed` — no result holds bytes behind the body of the request whose header is in it, and the
  rest of a body comes in one result;
* `recvRequest_held`, `recvRequest_resv` — a call that begins at a request;
* `recvRequest_nonzero` — the body that a call returns has fewer nonzero bytes than the call takes,
  wherever the call begins;
* `recvRequests_iff_packed` — successive calls return the requests exactly when these are packed.
-/

section Pipeline

variable (M : Machine) (lexical_cast : Bytes → Option UInt64)

/-- A request with its body. -/
structure Message where
  header : Bytes
  body : Bytes
  request : HttpRequest
  accepted : Accepts M header request
  body_length : (body.length : Int) = contentLength lexical_cast request

variable {M lexical_cast}

/-- What a call of `recvRequest` is to return. -/
def Message.result (m : Message M lexical_cast) : Result := .request (m.request.setBody m.body).init

def stream (ms : List (Message M lexical_cast)) : Bytes :=
  (ms.map fun m => m.header ++ m.body).flatten

/-- The `len` bytes from the byte `p` on lie in one result. -/
def Inside (p len : Nat) : List Bytes → Prop
  | [] => False
  | r :: results => if p < r.length then p + len ≤ r.length else Inside (p - r.length) len results

/-- Every header of the requests, the first of which begins at `p`, lies in one result. -/
def HeadersInside (results : List Bytes) : Nat → List (Message M lexical_cast) → Prop
  | _, [] => True
  | p, m :: ms =>
    Inside p m.header.length results ∧
      HeadersInside results (p + m.header.length + m.body.length) ms

instance Inside.decidable : (p len : Nat) → (results : List Bytes) →
    Decidable (Inside p len results)
  | _, _, [] => inferInstanceAs (Decidable False)
  | p, len, r :: results =>
    have := Inside.decidable (p - r.length) len results
    inferInstanceAs (Decidable (if p < r.length then p + len ≤ r.length else _))

instance HeadersInside.decidable (results : List Bytes) :
    (p : Nat) → (ms : List (Message M lexical_cast)) → Decidable (HeadersInside results p ms)
  | _, [] => inferInstanceAs (Decidable True)
  | p, m :: ms =>
    have := HeadersInside.decidable results (p + m.header.length + m.body.length) ms
    inferInstanceAs (Decidable (_ ∧ _))

/-- **How the requests are packed.** A header comes with its whole body, or with a part of it and
    the rest in the next result. Of the last body zeros may be missing. -/
def Packed : List (Message M lexical_cast) → List Bytes → Prop
  | [], results => results = []
  | m :: ms, results =>
    (∃ rest, results = (m.header ++ m.body) :: rest ∧ Packed ms rest) ∨
    (∃ c d rest, m.body = c ++ d ∧ d ≠ [] ∧ results = (m.header ++ c) :: d :: rest ∧
      Packed ms rest) ∨
    (ms = [] ∧ ∃ c d rest, m.body = c ++ d ++ rest.flatten ∧ d ≠ [] ∧
      results = (m.header ++ c) :: d :: rest ∧ ∀ b ∈ rest.flatten, b = 0)

/-! ### Positions in the results -/

theorem inside_skip {p len : Nat} {used rest : List Bytes} (h : Inside p len (used ++ rest))
    (hp : used.flatten.length ≤ p) : Inside (p - used.flatten.length) len rest := by
  induction used generalizing p with
  | nil => exact h
  | cons r used ih =>
    rw [List.flatten_cons, List.length_append] at hp ⊢
    rw [List.cons_append, Inside, if_neg (by omega)] at h
    rw [← Nat.sub_sub]
    exact ih h (by omega)

theorem inside_reach {p len : Nat} {used rest : List Bytes} (h : Inside p len (used ++ rest))
    (hp : p < used.flatten.length) : p + len ≤ used.flatten.length := by
  induction used generalizing p with
  | nil => exact absurd hp (Nat.not_lt_zero p)
  | cons r used ih =>
    rw [List.flatten_cons, List.length_append] at hp ⊢
    rw [List.cons_append, Inside] at h
    split_ifs at h with hr
    · omega
    · have := ih h (by omega)
      omega

theorem headersInside_skip {p : Nat} {used rest : List Bytes} {ms : List (Message M lexical_cast)}
    (h : HeadersInside (used ++ rest) p ms) (hp : used.flatten.length ≤ p) :
    HeadersInside rest (p - used.flatten.length) ms := by
  induction ms generalizing p with
  | nil => trivial
  | cons m ms ih =>
    refine ⟨inside_skip h.1 hp, ?_⟩
    have hrest := ih h.2 (by omega)
    have hpos : p - used.flatten.length + m.header.length + m.body.length =
        p + m.header.length + m.body.length - used.flatten.length := by omega
    rw [hpos]
    exact hrest

/-- Of two ways to split a list, the one with the shorter front goes on in the other front. -/
theorem append_split {x y u v : Bytes} (h : x ++ y = u ++ v) (hle : u.length ≤ x.length) :
    ∃ c, x = u ++ c ∧ v = c ++ y := by
  rcases List.append_eq_append_iff.mp h with ⟨c, rfl, rfl⟩ | ⟨c, rfl, rfl⟩
  · have hc : c = [] := List.eq_nil_of_length_eq_zero (by rw [List.length_append] at hle; omega)
    subst hc
    exact ⟨[], by simp, rfl⟩
  · exact ⟨c, rfl, rfl⟩

/-! ### A call that begins at a request -/

theorem Message.header_ne_nil (m : Message M lexical_cast) : m.header ≠ [] :=
  (accepts_run m.accepted).1

/-- The parser does not set the body. -/
theorem Message.request_body (m : Message M lexical_cast) : m.request.m_body = [] := by
  obtain ⟨-, query_start, s, hrun, -, -, hq⟩ := accepts_run m.accepted
  rw [← hq, (run_keeps hrun).1]
  rfl

variable {buff_size : Nat} {u : Uninit buff_size} {m : Message M lexical_cast} {c d r : Bytes}
  {rest : List Bytes}

theorem recvHeader_message (hM : Grammar M) (m : Message M lexical_cast) (data : Bytes)
    (query_start : Nat) (hsize : (m.header ++ c).length ≤ buff_size) :
    ∃ data' t, recvHeader M buff_size data 0 (.new M query_start) ((m.header ++ c) :: rest) =
      some (.complete data' c.length t, rest) ∧ data'.take c.length = c ∧
        t.m_data = m.request := by
  obtain ⟨hne, query_start', s, hrun, hfin, herr, hq⟩ := accepts_run m.accepted
  have hwhole := hM.whole m.accepted
  unfold uncut at hwhole
  split at hwhole
  case h_2 => exact absurd hwhole Bool.false_ne_true
  case h_1 cs hwalk =>
  have hsim : Sim [] ([] : Bytes).length .none (.new M query_start') (.new M query_start) :=
    .start rfl rfl ⟨rfl, rfl⟩
  have hmem : ([] : Bytes) ++ m.header ++ [] = m.header := by simp
  have hrun' : run M ([] ++ m.header ++ []) (([] : Bytes).length + ([] : Bytes).length) m.header
      (.new M query_start') = some (([] : Bytes).length + m.header.length, s) := by
    rw [hmem, List.length_nil, Nat.zero_add, Nat.zero_add]
    exact hrun
  obtain ⟨t, ht, -, hend⟩ := hsim.run (x := [])
    (z := c ++ data.drop (0 + (m.header ++ c).length)) (List.nil_append m.header).symm hwalk hrun'
    herr
    (fun xs ys q w hxs hw => by
      rw [hmem] at hw
      exact hM.no_msearch hrun hfin herr hxs hw)
  have hbuf : m.header ++ (c ++ data.drop (0 + (m.header ++ c).length)) =
      write data 0 (m.header ++ c) := by
    rw [write, List.take_zero, List.nil_append, List.append_assoc]
  rw [hbuf, List.length_nil] at ht
  obtain ⟨data', hdata', htake⟩ := recvHeader_complete (s := .new M query_start) hsize hne
    (run_append_final M.start_lt ht (hend.cs ▸ hfin)) hend.error.2 (hend.cs ▸ hfin)
  exact ⟨data', t, hdata', htake, hend.data.symm.trans hq⟩

/-- The result with the header holds the whole body. -/
theorem recvRequest_held (hM : Grammar M) (hsize : (m.header ++ (m.body ++ d)).length ≤ buff_size) :
    recvRequest M lexical_cast u ⟨false, (m.header ++ (m.body ++ d)) :: rest⟩ =
      some (m.result, ⟨false, rest⟩) := by
  obtain ⟨data, t, hheader, htake, hq⟩ := recvHeader_message hM m u.buffer u.query_start hsize
  apply recvRequest_eq hheader
  rw [hq]
  by_cases hb : m.body = []
  · have h0 : contentLength lexical_cast m.request ≤ 0 := by
      rw [← m.body_length, hb]
      exact le_rfl
    have hset : m.request.setBody [] = m.request := by
      rw [HttpRequest.setBody, ← m.request_body]
    rw [recvBody_none h0, hb, hset]
  · have hpos : 0 < m.body.length := List.length_pos_iff.mpr hb
    have hlen := m.body_length
    rw [recvBody_held (by omega) (by rw [List.length_append]; omega) htake, ← hlen,
      Int.toNat_natCast,
      List.take_left]

/-- The result with the header holds the part `c` of the body, and the next one is `r`. -/
theorem recvRequest_resv (hM : Grammar M) (hsize : (m.header ++ c).length ≤ buff_size)
    (hbody : m.body = c ++ d) (hr : r ≠ []) (hle : r.length ≤ d.length) :
    recvRequest M lexical_cast u ⟨false, (m.header ++ c) :: r :: rest⟩ =
      some (.request (m.request.setBody
        (c ++ r ++ List.replicate (d.length - r.length) 0)).init, ⟨false, rest⟩) := by
  obtain ⟨data, t, hheader, htake, hq⟩ := recvHeader_message hM m u.buffer u.query_start hsize
  apply recvRequest_eq hheader
  rw [hq]
  have hpos : 0 < r.length := List.length_pos_iff.mpr hr
  have hlen := m.body_length
  rw [hbody, List.length_append] at hlen
  have hzeros : (contentLength lexical_cast m.request).toNat - (c.length + r.length) =
      d.length - r.length := by omega
  rw [recvBody_resv (by omega) htake hr (by omega), hzeros]

/-! ### A call that begins anywhere -/

/-- How many of the bytes are not zero. -/
def nonzero (bytes : Bytes) : Nat := bytes.countP (· ≠ 0)

@[simp] theorem nonzero_append (x y : Bytes) : nonzero (x ++ y) = nonzero x + nonzero y :=
  List.countP_append

theorem nonzero_sublist {x y : Bytes} (h : x.Sublist y) : nonzero x ≤ nonzero y := h.countP_le

theorem nonzero_replicate (n : Nat) : nonzero (List.replicate n 0) = 0 := by
  simp [nonzero, List.countP_replicate]

theorem nonzero_write (data bytes : Bytes) (offset : Nat) :
    nonzero (write data offset bytes) ≤ nonzero data + nonzero bytes := by
  have hsplit : nonzero (data.take offset) + nonzero (data.drop offset) = nonzero data := by
    rw [← nonzero_append, List.take_append_drop]
  have hdrop : nonzero (data.drop (offset + bytes.length)) ≤ nonzero (data.drop offset) := by
    rw [← List.drop_drop]
    exact nonzero_sublist (List.drop_sublist _ _)
  rw [write, nonzero_append, nonzero_append]
  omega

section Header

variable {data data' : Bytes} {offset offset' : Nat} {s t : HttpRequestParser}
  {results results' : List Bytes}

/-- **One `execute` in the loop**, of what is left in the buffer and `r` behind it. -/
theorem recvHeader_cons (hoffset : offset ≤ data.length)
    (h : recvHeader M buff_size data offset s (r :: results) =
      some (.complete data' offset' t, results')) :
    ∃ p data₁ s₁, run M (write data offset r) 0 (data.take offset ++ r) s.reset = some (p, s₁) ∧
      s₁.cs ≠ M.error ∧ r.length + offset - p ≤ data₁.length ∧
      data₁.take (r.length + offset - p) = (data.take offset ++ r).drop p ∧
      ((results' = results ∧ data' = data₁ ∧ offset' = r.length + offset - p ∧ t = s₁) ∨
        (s₁.cs < M.first_final ∧ recvHeader M buff_size data₁ (r.length + offset - p) s₁ results =
          some (.complete data' offset' t, results'))) := by
  have hfront : (write data offset r).take (r.length + offset) = data.take offset ++ r := by
    have hlen : (data.take offset ++ r).length = r.length + offset := by
      rw [List.length_append, List.length_take, Nat.min_eq_left hoffset, Nat.add_comm]
    rw [write, ← hlen, List.take_left]
  have hlong : r.length + offset ≤ (write data offset r).length := by
    have := congrArg List.length hfront
    rw [List.length_take, List.length_append, List.length_take] at this
    omega
  rw [recvHeader] at h
  split_ifs at h with h1 h2
  · exact absurd (Prod.mk.inj (Option.some.inj h)).1 (by simp)
  · simp only at h
    split at h
    case h_1 => exact absurd (Prod.mk.inj (Option.some.inj h)).1 (by simp)
    case h_2 p data₁ s₁ hex =>
    have hlen0 : r.length + offset ≠ 0 := by
      have := List.length_pos_iff.mpr h2
      omega
    rw [execute, if_neg hlen0, hfront] at hex
    obtain ⟨⟨p', s'⟩, hrun, heq⟩ := Option.map_eq_some_iff.mp hex
    simp only [Prod.mk.injEq] at heq
    obtain ⟨rfl, hdata, rfl⟩ := heq
    have hleft : ((write data offset r).drop p').take (r.length + offset - p') =
        (data.take offset ++ r).drop p' := by
      rw [← List.drop_take, hfront]
    have hleftlen : ((data.take offset ++ r).drop p').length = r.length + offset - p' := by
      rw [← hfront, List.length_drop, List.length_take, Nat.min_eq_left hlong]
    have htake : data₁.take (r.length + offset - p') = (data.take offset ++ r).drop p' := by
      rw [← hdata, hleft, ← hleftlen, List.take_left]
    have hlen : r.length + offset - p' ≤ data₁.length := by
      rw [← hleftlen, ← htake, List.length_take]
      exact Nat.min_le_right _ _
    split_ifs at h with h3 h4 h5
    · exact absurd (Prod.mk.inj (Option.some.inj h)).1 (by simp)
    · exact absurd (Prod.mk.inj (Option.some.inj h)).1 (by simp)
    all_goals
      have herr : s'.cs ≠ M.error := fun hcs => h3 (by simp [hasError, hcs])
      refine ⟨p', data₁, s', hrun, herr, hlen, htake, ?_⟩
    · simp only [Option.some.injEq, Prod.mk.injEq, Header.complete.injEq] at h
      obtain ⟨⟨rfl, rfl, rfl⟩, rfl⟩ := h
      exact .inl ⟨rfl, rfl, rfl, rfl⟩
    · refine .inr ⟨?_, h⟩
      by_contra hfin
      rw [isFinished, if_neg herr, if_pos (not_lt.mp hfin)] at h5
      exact h5 one_ne_zero

/-- What the loop leaves in the buffer was there or has been received. -/
theorem recvHeader_nonzero (hoffset : offset ≤ data.length)
    (h : recvHeader M buff_size data offset s results =
      some (.complete data' offset' t, results')) :
    ∃ used, results = used ++ results' ∧ t.m_data.m_body = s.m_data.m_body ∧
      nonzero (data'.take offset') ≤ nonzero (data.take offset) + nonzero used.flatten := by
  induction results generalizing data offset s with
  | nil =>
    rw [recvHeader] at h
    exact absurd (Prod.mk.inj (Option.some.inj h)).1 (by simp)
  | cons r results ih =>
    obtain ⟨p, data₁, s₁, hrun, -, hlen, htake, hend⟩ := recvHeader_cons hoffset h
    have hbody : s₁.m_data.m_body = s.m_data.m_body := (run_keeps hrun).1
    have hdrop : nonzero ((data.take offset ++ r).drop p) ≤
        nonzero (data.take offset) + nonzero r := by
      rw [← nonzero_append]
      exact nonzero_sublist (List.drop_sublist _ _)
    rcases hend with ⟨rfl, rfl, rfl, rfl⟩ | ⟨-, hrest⟩
    · refine ⟨[r], rfl, hbody, ?_⟩
      rw [htake]
      simpa using hdrop
    · obtain ⟨used, rfl, hbody', hle⟩ := ih hlen hrest
      refine ⟨r :: used, rfl, hbody'.trans hbody, ?_⟩
      rw [htake] at hle
      rw [List.flatten_cons, nonzero_append]
      omega

/-- A fresh parser takes a byte that is not zero. -/
theorem recvHeader_fresh {query_start : Nat}
    (h : recvHeader M buff_size data 0 (.new M query_start) results =
      some (.complete data' offset' t, results')) :
    ∃ used b bytes, results = used ++ results' ∧ t.m_data.m_body = [] ∧
      used.flatten = b :: bytes ∧ b ≠ 0 ∧ nonzero (data'.take offset') ≤ nonzero bytes := by
  match results, h with
  | [], h =>
    rw [recvHeader] at h
    exact absurd (Prod.mk.inj (Option.some.inj h)).1 (by simp)
  | [] :: results, h =>
    simp [recvHeader] at h
  | (b :: r) :: results, h =>
    obtain ⟨p, data₁, s₁, hrun, herr, hlen, htake, hend⟩ := recvHeader_cons (Nat.zero_le _) h
    rw [List.take_zero, List.nil_append] at hrun htake
    have hbody : s₁.m_data.m_body = [] := (run_keeps hrun).1
    have hp : b ≠ 0 ∧ 1 ≤ p := by
      rcases run_cons hrun with ⟨-, -, rfl⟩ | ⟨hne, v, hv, hend⟩
      · exact absurd rfl herr
      · refine ⟨fun hb => hne (by rw [hb]; exact M.next_zero), ?_⟩
        rcases hend with ⟨-, rfl, -⟩ | ⟨-, hrun⟩
        · exact le_rfl
        · exact (run_position hne hrun).1
    have hdrop : nonzero (data₁.take ((b :: r).length + 0 - p)) ≤ nonzero r := by
      obtain ⟨n, rfl⟩ := Nat.exists_eq_add_of_le hp.2
      rw [htake, Nat.add_comm, List.drop_succ_cons]
      exact nonzero_sublist (List.drop_sublist _ _)
    rcases hend with ⟨rfl, rfl, rfl, rfl⟩ | ⟨-, hrest⟩
    · exact ⟨[b :: r], b, r, rfl, hbody, by simp, hp.1, hdrop⟩
    · obtain ⟨used, rfl, hbody', hle⟩ := recvHeader_nonzero hlen hrest
      refine ⟨(b :: r) :: used, b, r ++ used.flatten, rfl, hbody'.trans hbody, rfl, hp.1, ?_⟩
      rw [nonzero_append]
      omega

theorem recvBody_nonzero {q q' : HttpRequest} (hq : q.m_body = [])
    (h : recvBody lexical_cast data offset q results = some (.request q', results')) :
    ∃ used, results = used ++ results' ∧
      nonzero q'.m_body ≤ nonzero (data.take offset) + nonzero used.flatten := by
  have hcopy : nonzero (write (List.replicate (contentLength lexical_cast q).toNat 0) 0
      (data.take (min offset (contentLength lexical_cast q).toNat))) ≤
        nonzero (data.take offset) := by
    apply (nonzero_write _ _ _).trans
    rw [nonzero_replicate, Nat.zero_add]
    exact nonzero_sublist ((List.take_prefix_take_left (Nat.min_le_left _ _)).sublist)
  simp only [recvBody] at h
  split_ifs at h with h1 h2
  · simp only [Option.some.injEq, Prod.mk.injEq, Result.request.injEq] at h
    obtain ⟨rfl, rfl⟩ := h
    refine ⟨[], rfl, ?_⟩
    rw [HttpRequest.init_body, hq]
    exact Nat.zero_le _
  · simp only [Option.some.injEq, Prod.mk.injEq, Result.request.injEq] at h
    obtain ⟨rfl, rfl⟩ := h
    refine ⟨[], rfl, ?_⟩
    rw [HttpRequest.init_body]
    exact hcopy
  · cases results with
    | nil => exact absurd (Prod.mk.inj (Option.some.inj h)).1 (by simp)
    | cons r results =>
      simp only at h
      split_ifs at h with h3 h4
      · exact absurd (Prod.mk.inj (Option.some.inj h)).1 (by simp)
      · simp only [Option.some.injEq, Prod.mk.injEq, Result.request.injEq] at h
        obtain ⟨rfl, rfl⟩ := h
        refine ⟨[r], rfl, ?_⟩
        rw [HttpRequest.init_body, List.flatten_cons, List.flatten_nil, List.append_nil]
        exact (nonzero_write _ _ _).trans (Nat.add_le_add_right hcopy _)

/-- **A call anywhere.** It takes a byte that is not zero first, and the body has no more nonzero
    bytes than it takes after that. -/
theorem recvRequest_nonzero {q : HttpRequest} {session session' : Session}
    (h : recvRequest M lexical_cast u session = some (.request q, session')) :
    session'.closed = false ∧ ∃ used b bytes, session.results = used ++ session'.results ∧
      used.flatten = b :: bytes ∧ b ≠ 0 ∧ nonzero q.m_body ≤ nonzero bytes := by
  unfold recvRequest at h
  split_ifs at h
  · exact absurd (Prod.mk.inj (Option.some.inj h)).1 (by simp)
  obtain ⟨⟨header, results⟩, hheader, h⟩ := Option.bind_eq_some_iff.mp h
  cases header with
  | nullptr => exact absurd (Prod.mk.inj (Option.some.inj h)).1 (by simp)
  | exception => exact absurd (Prod.mk.inj (Option.some.inj h)).1 (by simp)
  | complete data offset t =>
    obtain ⟨used, b, bytes, hused, hbody, hbytes, hb, hle⟩ := recvHeader_fresh hheader
    obtain ⟨⟨result, results'⟩, hresult, h⟩ := Option.map_eq_some_iff.mp h
    cases result with
    | nullptr => exact absurd (Prod.mk.inj h).1 (by simp)
    | exception => exact absurd (Prod.mk.inj h).1 (by simp)
    | request q' =>
      simp only [Prod.mk.injEq, Result.request.injEq] at h
      obtain ⟨rfl, rfl⟩ := h
      obtain ⟨used', rfl, hle'⟩ := recvBody_nonzero hbody hresult
      refine ⟨rfl, used ++ used', b, bytes ++ used'.flatten, by rw [hused, List.append_assoc],
        by rw [List.flatten_append, hbytes, List.cons_append], hb, ?_⟩
      rw [nonzero_append]
      omega

end Header

/-! ### Successive calls -/

section Calls

variable {us : List (Uninit buff_size)} {ms : List (Message M lexical_cast)}
  {outs : List Result} {results used : List Bytes} {session session' : Session}

theorem recvRequests_cons (h : recvRequests M lexical_cast (u :: us) session =
    some (outs, session')) :
    ∃ result session₁ outs', recvRequest M lexical_cast u session = some (result, session₁) ∧
      recvRequests M lexical_cast us session₁ = some (outs', session') ∧
      outs = result :: outs' := by
  obtain ⟨⟨result, session₁⟩, hfirst, h⟩ := Option.bind_eq_some_iff.mp h
  obtain ⟨⟨outs', session''⟩, hrest, h⟩ := Option.map_eq_some_iff.mp h
  obtain ⟨rfl, rfl⟩ := Prod.mk.inj h
  exact ⟨result, session₁, outs', hfirst, hrest, rfl⟩

/-- The first result fits in the buffer. -/
theorem recvRequest_fits {x : Result × Session}
    (h : recvRequest M lexical_cast u ⟨false, r :: results⟩ = some x) : r.length ≤ buff_size := by
  by_contra hlt
  rw [recvRequest, if_neg Bool.false_ne_true, recvHeader, if_pos (by omega)] at h
  exact absurd h (by simp)

/-- The result that goes into the body fits, too. -/
theorem recvRequest_resv_fits {x : Result × Session} (hM : Grammar M) (hbody : m.body = c ++ d)
    (hd : d ≠ [])
    (h : recvRequest M lexical_cast u ⟨false, (m.header ++ c) :: r :: results⟩ = some x) :
    r.length ≤ d.length := by
  have hfits : (m.header ++ c).length ≤ buff_size := recvRequest_fits h
  have hmessage : ∃ data t, recvHeader M buff_size u.buffer 0 (.new M u.query_start)
      ((m.header ++ c) :: r :: results) = some (.complete data c.length t, r :: results) ∧
        data.take c.length = c ∧ t.m_data = m.request :=
    recvHeader_message hM m u.buffer u.query_start hfits
  obtain ⟨data, t, hheader, -, hq⟩ := hmessage
  by_contra hlt
  have hpos : 0 < d.length := List.length_pos_iff.mpr hd
  have hlen := m.body_length
  rw [hbody, List.length_append] at hlen
  have hnone : recvBody lexical_cast data c.length t.m_data (r :: results) = none := by
    rw [hq]
    simp only [recvBody]
    rw [if_neg (by omega), if_neg (by omega), if_pos (by omega)]
  rw [recvRequest, if_neg Bool.false_ne_true, hheader] at h
  replace h : (recvBody lexical_cast data c.length t.m_data (r :: results)).map _ = some x := h
  rw [hnone] at h
  exact absurd h (by simp)

theorem stream_cons (m : Message M lexical_cast) (ms : List (Message M lexical_cast)) :
    stream (m :: ms) = m.header ++ (m.body ++ stream ms) := by
  simp [stream]

/-- A call that begins in the body of a request takes more than what is left of this body. -/
theorem taken_of_ahead {pre : Bytes} {session₁ : Session}
    (hstream : (used ++ rest).flatten = pre ++ stream (m :: ms))
    (hahead : (pre ++ m.header).length ≤ used.flatten.length)
    (hfirst : recvRequest M lexical_cast u ⟨false, rest⟩ = some (m.result, session₁)) :
    session₁.closed = false ∧ ∃ used', rest = used' ++ session₁.results ∧
      (pre ++ m.header ++ m.body).length < (used ++ used').flatten.length := by
  obtain ⟨hopen, used', b, bytes, rfl, hbytes, hb, hle⟩ := recvRequest_nonzero hfirst
  refine ⟨hopen, used', rfl, ?_⟩
  by_contra hlt
  rw [stream_cons, List.flatten_append, ← List.append_assoc pre, List.flatten_append] at hstream
  obtain ⟨c, hc, hrest⟩ := append_split hstream hahead
  rw [← List.append_assoc c] at hrest
  have hlen := congrArg List.length hc
  simp only [List.flatten_append, List.length_append] at hlen hlt
  obtain ⟨d, hd, -⟩ := append_split hrest (by rw [List.length_append]; omega)
  -- what the call has taken is a part of the body
  have hpart : nonzero used'.flatten ≤ nonzero m.body := by
    rw [hd]
    simp only [nonzero_append]
    omega
  have hcons : nonzero used'.flatten = nonzero bytes + 1 := by
    rw [hbytes]
    simp [nonzero, hb]
  rw [HttpRequest.init_body, HttpRequest.setBody_body] at hle
  omega

/-- **No way back.** A session that has taken the header of a request does not return the
    request. -/
theorem not_ahead {pre : Bytes} (hin : HeadersInside (used ++ rest) pre.length (m :: ms))
    (hstream : (used ++ rest).flatten = pre ++ stream (m :: ms))
    (hahead : (pre ++ m.header).length ≤ used.flatten.length) :
    recvRequests M lexical_cast us ⟨false, rest⟩ ≠
      some ((m :: ms).map Message.result, session) := by
  intro hrun
  induction ms generalizing us used rest pre m session with
  | nil =>
    match us, hrun with
    | [], hrun => exact absurd (Prod.mk.inj (Option.some.inj hrun)).1 (by simp)
    | u :: us, hrun =>
      obtain ⟨result, session₁, outs', hfirst, -, houts⟩ := recvRequests_cons hrun
      obtain ⟨rfl, -⟩ := List.cons.inj houts
      obtain ⟨-, used', rfl, hlt⟩ := taken_of_ahead hstream hahead hfirst
      -- there are not that many bytes
      have hlen := congrArg List.length hstream
      simp [stream] at hlen hlt
      omega
  | cons m' ms ih =>
    match us, hrun with
    | [], hrun => exact absurd (Prod.mk.inj (Option.some.inj hrun)).1 (by simp)
    | u :: us, hrun =>
      obtain ⟨result, session₁, outs', hfirst, hothers, houts⟩ := recvRequests_cons hrun
      obtain ⟨rfl, rfl⟩ := List.cons.inj houts
      obtain ⟨hopen, used', rfl, hlt⟩ := taken_of_ahead hstream hahead hfirst
      have hsession : session₁ = ⟨false, session₁.results⟩ := by
        rw [← hopen]
      rw [← List.append_assoc] at hin hstream
      have hin' : HeadersInside (used ++ used' ++ session₁.results)
          (pre ++ m.header ++ m.body).length (m' :: ms) := by
        rw [List.length_append, List.length_append]
        exact hin.2
      refine ih hin' ?_ ?_ (hsession ▸ hothers)
      · rw [hstream, stream_cons]
        simp only [List.append_assoc]
      · rw [List.length_append]
        exact inside_reach hin'.1 hlt

/-- No call returns a request where the bytes begin with a zero. -/
theorem not_recvRequests_zero {bytes : Bytes} {results : List Bytes}
    (hzero : results.flatten = 0 :: bytes) : recvRequests M lexical_cast us ⟨false, results⟩ ≠
      some ((m :: ms).map Message.result, session) := by
  intro hrun
  cases us with
  | nil => exact absurd (Prod.mk.inj (Option.some.inj hrun)).1 (by simp)
  | cons u us =>
    obtain ⟨result, session₁, outs', hnext, -, houts⟩ := recvRequests_cons hrun
    obtain ⟨rfl, -⟩ := List.cons.inj houts
    obtain ⟨-, used, b, bytes', hused, hbytes, hb, -⟩ := recvRequest_nonzero hnext
    replace hused : results = used ++ session₁.results := hused
    rw [hused, List.flatten_append, hbytes] at hzero
    exact hb (List.cons.inj hzero).1

/-- If the next calls return the later requests, nothing of these has come with a body. -/
theorem nothing_ahead {rest : List Bytes} (hstream : stream ms = d ++ rest.flatten)
    (hin : HeadersInside ([r ++ d] ++ rest) r.length ms)
    (hrun : recvRequests M lexical_cast us ⟨false, rest⟩ =
      some (ms.map Message.result, session)) : d = [] := by
  by_contra hd
  have hpos : 0 < d.length := List.length_pos_iff.mpr hd
  cases ms with
  | nil => exact hd (List.append_eq_nil_iff.mp hstream.symm).1
  | cons m ms =>
    refine not_ahead hin ?_ ?_ hrun
    · rw [hstream]
      simp
    · rw [List.length_append]
      exact inside_reach hin.1 (by simp; omega)

/-- The calls return the requests, so these are packed. -/
theorem packed_of_recvRequests (hM : Grammar M) (hresults : [] ∉ results)
    (hstream : results.flatten = stream ms) (hin : HeadersInside results 0 ms)
    (hrun : recvRequests M lexical_cast us ⟨false, results⟩ =
      some (ms.map Message.result, session)) : Packed ms results := by
  induction ms generalizing us results with
  | nil =>
    apply List.eq_nil_iff_forall_not_mem.mpr
    intro r hr
    apply hresults
    rwa [← List.flatten_eq_nil_iff.mp hstream r hr]
  | cons m ms ih =>
    match us, results, hrun with
    | [], _, hrun => exact absurd (Prod.mk.inj (Option.some.inj hrun)).1 (by simp)
    | u :: us, [], hrun =>
      rw [stream_cons] at hstream
      exact absurd (List.append_eq_nil_iff.mp hstream.symm).1 m.header_ne_nil
    | u :: us, r :: rest, hrun =>
      obtain ⟨result, session₁, outs', hfirst, hothers, houts⟩ := recvRequests_cons hrun
      obtain ⟨rfl, rfl⟩ := List.cons.inj houts
      have hr : r ≠ [] := fun h => hresults (by rw [h]; exact List.mem_cons_self)
      have hrest : [] ∉ rest := fun h => hresults (List.mem_cons_of_mem _ h)
      have hheader : m.header.length ≤ r.length := by
        have h0 := hin.1
        rw [Inside, if_pos (List.length_pos_iff.mpr hr), Nat.zero_add] at h0
        exact h0
      rw [List.flatten_cons, stream_cons] at hstream
      obtain ⟨c, rfl, hc⟩ := append_split hstream hheader
      have hfits := recvRequest_fits hfirst
      rcases le_or_gt m.body.length c.length with hle | hlt
      · -- the whole body has come with the header
        obtain ⟨d, rfl, hd⟩ := append_split hc.symm hle
        rw [recvRequest_held hM hfits] at hfirst
        obtain ⟨-, rfl⟩ := Prod.mk.inj (Option.some.inj hfirst)
        have hin' : HeadersInside ([m.header ++ m.body ++ d] ++ rest)
            (m.header ++ m.body).length ms := by
          rw [List.append_assoc, List.length_append, ← Nat.zero_add m.header.length]
          exact hin.2
        obtain rfl := nothing_ahead hd hin' hothers
        rw [List.append_nil] at hin' ⊢
        refine .inl ⟨rest, rfl, ih hrest hd.symm ?_ hothers⟩
        simpa using headersInside_skip hin' (by simp)
      · -- a part of the body is missing
        obtain ⟨d, hd, hflat⟩ := append_split hc hlt.le
        have hd0 : d ≠ [] := fun h => by rw [hd, h, List.append_nil] at hlt; exact lt_irrefl _ hlt
        match rest, hrest, hflat, hfirst, hin with
        | [], _, hflat, _, _ => exact absurd (List.append_eq_nil_iff.mp hflat.symm).1 hd0
        | r :: rest, hrest, hflat, hfirst, hin =>
          have hr0 : r ≠ [] := fun h => hrest (by rw [h]; exact List.mem_cons_self)
          have hrest' : [] ∉ rest := fun h => hrest (List.mem_cons_of_mem _ h)
          have hle := recvRequest_resv_fits hM hd hd0 hfirst
          rw [recvRequest_resv hM hfits hd hr0 hle] at hfirst
          obtain ⟨hresult, rfl⟩ := Prod.mk.inj (Option.some.inj hfirst)
          -- the bytes that have not come are zeros
          have hbody := congrArg HttpRequest.m_body (Result.request.inj hresult)
          rw [HttpRequest.init_body, HttpRequest.init_body, HttpRequest.setBody_body,
            HttpRequest.setBody_body, hd, List.append_assoc, List.append_cancel_left_eq] at hbody
          rw [← hbody, List.flatten_cons, List.append_assoc, List.append_cancel_left_eq] at hflat
          by_cases hzero : d.length - r.length = 0
          · rw [hzero, List.replicate_zero] at hbody hflat
            rw [List.append_nil] at hbody
            rw [← hbody] at hd
            refine .inr (.inl ⟨c, r, rest, hd, hr0, rfl, ih hrest' hflat ?_ hothers⟩)
            have hin' : HeadersInside ([m.header ++ c, r] ++ rest)
                (0 + m.header.length + m.body.length) ms := hin.2
            have hskip := headersInside_skip hin' (by simp [hd])
            simpa [hd, Nat.add_assoc] using hskip
          · match ms, hflat, hothers with
            | [], hflat, _ =>
              refine .inr (.inr ⟨rfl, c, r, rest, ?_, hr0, rfl, ?_⟩)
              · rw [hd, ← hbody, hflat]
                simp [stream]
              · intro b hb
                rw [hflat] at hb
                simp [stream] at hb
                exact hb.2
            | m' :: ms, hflat, hothers =>
              -- the next call begins at a zero
              obtain ⟨n, hn⟩ := Nat.exists_eq_succ_of_ne_zero hzero
              rw [hn, List.replicate_succ] at hflat
              exact absurd hothers (not_recvRequests_zero hflat)

/-- Where the requests are packed, the calls return them. -/
theorem recvRequests_of_packed (hM : Grammar M) (hpacked : Packed ms results)
    (hcalls : us.length = ms.length)
    (hrun : recvRequests M lexical_cast us ⟨false, results⟩ = some (outs, session)) :
    outs = ms.map Message.result := by
  induction ms generalizing us results outs with
  | nil =>
    obtain rfl := List.eq_nil_of_length_eq_zero hcalls
    exact (Prod.mk.inj (Option.some.inj hrun)).1.symm
  | cons m ms ih =>
    match us, hcalls with
    | u :: us, hcalls =>
      obtain ⟨result, session₁, outs', hfirst, hothers, rfl⟩ := recvRequests_cons hrun
      replace hcalls : us.length = ms.length := Nat.succ.inj hcalls
      rcases hpacked with ⟨rest, rfl, hpacked⟩ | ⟨c, d, rest, hd, hd0, rfl, hpacked⟩ |
        ⟨rfl, c, d, rest, hd, hd0, rfl, hzeros⟩
      · rw [← List.append_nil m.body] at hfirst
        rw [recvRequest_held hM (recvRequest_fits hfirst)] at hfirst
        obtain ⟨rfl, rfl⟩ := Prod.mk.inj (Option.some.inj hfirst)
        rw [List.map_cons, ih hpacked hcalls hothers]
      · rw [recvRequest_resv hM (recvRequest_fits hfirst) hd hd0 le_rfl] at hfirst
        obtain ⟨rfl, rfl⟩ := Prod.mk.inj (Option.some.inj hfirst)
        rw [List.map_cons, ih hpacked hcalls hothers, Nat.sub_self, List.replicate_zero,
          List.append_nil, ← hd, Message.result]
      · rw [List.append_assoc] at hd
        obtain rfl := List.eq_nil_of_length_eq_zero hcalls
        rw [recvRequest_resv hM (recvRequest_fits hfirst) hd hd0 (by simp)] at hfirst
        obtain ⟨rfl, rfl⟩ := Prod.mk.inj (Option.some.inj hfirst)
        obtain ⟨rfl, -⟩ := Prod.mk.inj (Option.some.inj hothers)
        have hmissing : List.replicate ((d ++ rest.flatten).length - d.length) (0 : UInt8) =
            rest.flatten := by
          rw [List.length_append, Nat.add_sub_cancel_left]
          exact (List.eq_replicate_of_mem hzeros).symm
        rw [hmissing, List.append_assoc, ← hd]
        rfl

end Calls

end Pipeline

/-! ### Two requests -/

namespace Table

/-- A request without a body. -/
def get : Message machine decimal where
  header := chars "GET / HTTP/1.1\r\n\r\n"
  body := []
  request := .new
  accepted := accepts_of_test (by decide +kernel)
  body_length := by decide +kernel

/-- A request with a body. -/
def getHi : Message machine decimal where
  header := chars "GET / HTTP/1.1\r\nContent-Length: 2\r\n\r\n"
  body := chars "hi"
  request := HttpRequest.new.setHeader (chars "Content-Length") (chars "2")
  accepted := accepts_of_test (by decide +kernel)
  body_length := by decide +kernel

end Table

end LimWebserver.Http
