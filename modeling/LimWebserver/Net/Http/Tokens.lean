import LimWebserver.Net.Http.Dump
import LimWebserver.Net.Http.Limits

namespace LimWebserver.Http

open HttpRequestParser

/-!
# Http — the bytes of the tokens

What `http11_parser.rl` lets through in a path, a query, a fragment, a name or a value, and what
follows for the requests that `recvRequest` returns.

* `Clean`, `Clean.act`, `Clean.take` — which registers have bytes of a token behind them;
* `Lexical` — every token that the table reports consists of bytes that its grammar allows;
* `Tidy` — a request whose texts have no line ends, and its header names no colons and no zeros;
* `Sound` — what `Clean` says of the registers of a run;
* `act_sound`, `run_tidy`, `recvRequest_tidy` — one action, one `execute`, one call.
-/

/-- A byte of a path, a query, a fragment or a value. -/
def isText (b : UInt8) : Bool := b ≠ 13 ∧ b ≠ 10

/-- A byte of the name of a header. In `HTTP_CTL = (0 - 31) | 127` the minus is a difference, not a
    range, so that a `token` may have line ends in it. -/
def isName (b : UInt8) : Bool := b ≠ 0 ∧ b ≠ 58

/-- From which registers up to the current byte there are bytes of a text or a name only; `field` is
    about the name whose length has been written. -/
structure Clean where
  mark : Bool
  field_start : Bool
  field : Bool
  query_start : Bool
  deriving DecidableEq, Repr

namespace Clean

/-- No byte has been taken. -/
def all : Clean := ⟨true, true, true, true⟩

/-- Behind an action; none where it reports a token with other bytes in it. -/
def act (k : Clean) : ParserAction → Option Clean
  | .mark => some { k with mark := true }
  | .startField => some { k with field_start := true, field := false }
  | .writeField => some { k with field := k.field_start }
  | .startValue => some { k with mark := true }
  | .writeValue => if k.field ∧ k.mark then some k else none
  | .requestMethod => some k
  | .requestUri => some k
  | .fragment => if k.mark then some k else none
  | .startQuery => some { k with query_start := true }
  | .queryString => if k.query_start then some k else none
  | .httpVersion => some k
  | .requestPath => if k.mark then some k else none
  | .done => some k

def acts : List ParserAction → Clean → Option Clean
  | [], k => some k
  | a :: as, k => (k.act a).bind (acts as)

/-- Behind the byte `b`. -/
def take (k : Clean) (b : UInt8) : Clean where
  mark := k.mark && isText b
  field_start := k.field_start && isName b
  field := k.field
  query_start := k.query_start && isText b

/-- Whether all tokens that are reported are clean, up to an error or the end of the header. -/
def walk (M : Machine) : Nat → Clean → Bytes → Bool
  | _, _, [] => true
  | cs, k, b :: bytes =>
    -- the byte is refused, and nothing is reported
    if (M.next cs b).1 = M.error then true
    else
      match acts (M.next cs b).2 k with
      | none => false
      | some k' =>
        decide (.done ∈ (M.next cs b).2) || walk M (M.next cs b).1 (k'.take b) bytes

end Clean

/-- From a state on, all tokens are clean. -/
def Safe (M : Machine) (cs : Nat) (k : Clean) : Prop := ∀ bytes, Clean.walk M cs k bytes = true

/-- **The tokens of `http11_parser.rl`.** -/
def Lexical (M : Machine) : Prop := Safe M M.start .all

/-- What such tokens make of a request. -/
structure Tidy (q : HttpRequest) : Prop where
  path : ∀ b ∈ q.m_path, isText b = true
  query : ∀ b ∈ q.m_query, isText b = true
  fragment : ∀ b ∈ q.m_fragment, isText b = true
  names : ∀ i ∈ q.m_headers, ∀ b ∈ i.1, isName b = true
  headers : ∀ i ∈ q.m_headers, ∀ b ∈ i.2, isText b = true
  sorted : MapType.Sorted q.m_headers

theorem Tidy.new : Tidy .new where
  path := by
    intro b hb
    obtain rfl : b = 47 := List.mem_singleton.mp hb
    decide
  query := fun _ hb => absurd hb List.not_mem_nil
  fragment := fun _ hb => absurd hb List.not_mem_nil
  names := fun _ hi => absurd hi List.not_mem_nil
  headers := fun _ hi => absurd hi List.not_mem_nil
  sorted := List.Pairwise.nil

/-- The callback of a header. -/
theorem Tidy.setHeader {q : HttpRequest} {key val : Bytes} (h : Tidy q)
    (hkey : ∀ b ∈ key, isName b = true) (hval : ∀ b ∈ val, isText b = true) :
    Tidy (q.setHeader key val) where
  path := h.path
  query := h.query
  fragment := h.fragment
  names := by
    intro i hi
    rcases (MapType.mem_set hi).1 with hnew | hold
    · rw [hnew]
      exact hkey
    · obtain ⟨i', hi', heq⟩ := List.mem_map.mp hold
      rw [← heq]
      exact h.names i' hi'
  headers := by
    intro i hi
    rcases (MapType.mem_set hi).2 with hnew | hold
    · rw [hnew]
      exact hval
    · obtain ⟨i', hi', heq⟩ := List.mem_map.mp hold
      rw [← heq]
      exact h.headers i' hi'
  sorted := MapType.set_sorted h.sorted

section

variable {M : Machine} {mem bytes : Bytes} {p p' : Nat} {a : ParserAction} {as : List ParserAction}
  {s s' : HttpRequestParser} {k k' : Clean} {b : UInt8}

theorem safe_next (h : Safe M s.cs k) (hne : (M.next s.cs b).1 ≠ M.error) :
    ∃ k', Clean.acts (M.next s.cs b).2 k = some k' ∧
      (.done ∉ (M.next s.cs b).2 → Safe M (M.next s.cs b).1 (k'.take b)) := by
  cases hacts : Clean.acts (M.next s.cs b).2 k with
  | none =>
    have hwalk := h [b]
    rw [Clean.walk, if_neg hne, hacts] at hwalk
    exact absurd hwalk Bool.false_ne_true
  | some k' =>
    refine ⟨k', rfl, fun hdone bytes => ?_⟩
    have hwalk := h (b :: bytes)
    rw [Clean.walk, if_neg hne, hacts] at hwalk
    simpa [hdone] using hwalk

/-! ### What the registers lead to -/

/-- The bytes from `first` up to `p`. -/
def slice (mem : Bytes) (first p : Nat) : Bytes := (mem.drop first).take (p - first)

theorem mem_slice_succ {first : Nat} {x : UInt8} (hb : mem[p]? = some b)
    (hx : x ∈ slice mem first (p + 1)) : x ∈ slice mem first p ∨ x = b := by
  unfold slice at hx ⊢
  by_cases hle : first ≤ p
  · have hlen : p + 1 - first = p - first + 1 := by omega
    rw [hlen, List.take_add_one, List.mem_append, List.getElem?_drop, Nat.add_sub_cancel' hle,
      hb] at hx
    exact hx.imp_right fun h => List.mem_singleton.mp h
  · have hlen : p + 1 - first = 0 := by omega
    rw [hlen, List.take_zero] at hx
    exact absurd hx List.not_mem_nil

/-- `k` holds of the registers of `s` at the byte `p`. -/
structure Sound (mem : Bytes) (p : Nat) (k : Clean) (s : HttpRequestParser) : Prop where
  mark : k.mark → ∀ b ∈ slice mem s.mark p, isText b = true
  field_start : k.field_start → ∀ b ∈ slice mem s.field_start p, isName b = true
  field : k.field → ∀ b ∈ (mem.drop s.field_start).take s.field_len, isName b = true
  query_start : k.query_start → ∀ b ∈ slice mem s.query_start p, isText b = true

/-- At the beginning of a call there is nothing behind the registers. -/
theorem Sound.reset (mem : Bytes) (k : Clean) (s : HttpRequestParser) :
    Sound mem 0 k s.reset := by
  have hempty : ∀ first, slice mem first 0 = [] := fun first => by
    rw [slice, Nat.zero_sub, List.take_zero]
  refine ⟨fun _ b hb => ?_, fun _ b hb => ?_, fun _ b hb => ?_, fun _ b hb => ?_⟩
  · rw [hempty] at hb
    exact absurd hb List.not_mem_nil
  · rw [hempty] at hb
    exact absurd hb List.not_mem_nil
  · exact absurd hb List.not_mem_nil
  · rw [hempty] at hb
    exact absurd hb List.not_mem_nil

/-- One byte is taken. -/
theorem Sound.take (h : Sound mem p k s) (hb : mem[p]? = some b) (cs : Nat) :
    Sound mem (p + 1) (k.take b) { s with cs := cs } where
  mark := by
    intro hk x hx
    obtain ⟨hmark, htext⟩ := Bool.and_eq_true_iff.mp hk
    rcases mem_slice_succ hb hx with hx | rfl
    · exact h.mark hmark x hx
    · exact htext
  field_start := by
    intro hk x hx
    obtain ⟨hfield, hname⟩ := Bool.and_eq_true_iff.mp hk
    rcases mem_slice_succ hb hx with hx | rfl
    · exact h.field_start hfield x hx
    · exact hname
  field := h.field
  query_start := by
    intro hk x hx
    obtain ⟨hquery, htext⟩ := Bool.and_eq_true_iff.mp hk
    rcases mem_slice_succ hb hx with hx | rfl
    · exact h.query_start hquery x hx
    · exact htext

/-- A register is set to the current byte. -/
theorem not_mem_slice_self {x : UInt8} : x ∉ slice mem p p := by
  rw [slice, Nat.sub_self, List.take_zero]
  exact List.not_mem_nil

/-- **One action** reports clean tokens. -/
theorem act_sound (h : Sound mem p k s) (hq : Tidy s.m_data) (hk : k.act a = some k')
    (hs : act mem p s a = some s') : Sound mem p k' s' ∧ Tidy s'.m_data := by
  cases a
  case mark | startValue =>
    obtain rfl := Option.some.inj hs
    obtain rfl := Option.some.inj hk
    exact ⟨{ h with mark := fun _ b hb => absurd hb not_mem_slice_self }, hq⟩
  case startField =>
    obtain rfl := Option.some.inj hs
    obtain rfl := Option.some.inj hk
    exact ⟨{ h with
      field_start := fun _ b hb => absurd hb not_mem_slice_self
      field := fun hfield => absurd hfield Bool.false_ne_true }, hq⟩
  case writeField =>
    obtain rfl := Option.some.inj hs
    obtain rfl := Option.some.inj hk
    exact ⟨{ h with field := h.field_start }, hq⟩
  case startQuery =>
    obtain rfl := Option.some.inj hs
    obtain rfl := Option.some.inj hk
    exact ⟨{ h with query_start := fun _ b hb => absurd hb not_mem_slice_self }, hq⟩
  case requestUri | done =>
    obtain rfl := Option.some.inj hs
    obtain rfl := Option.some.inj hk
    exact ⟨h, hq⟩
  case writeValue =>
    simp only [Clean.act] at hk
    split_ifs at hk with hclean
    obtain rfl := Option.some.inj hk
    obtain rfl := Option.some.inj hs
    unfold onRequestHttpField
    split_ifs
    · exact ⟨h, hq⟩
    · exact ⟨⟨h.mark, h.field_start, h.field, h.query_start⟩,
        hq.setHeader (h.field hclean.1) (h.mark hclean.2)⟩
  case requestMethod =>
    obtain rfl := Option.some.inj hk
    obtain rfl := Option.some.inj hs
    unfold onRequestMethod
    split
    · exact ⟨⟨h.mark, h.field_start, h.field, h.query_start⟩, hq⟩
    · exact ⟨⟨h.mark, h.field_start, h.field, h.query_start⟩,
        ⟨hq.path, hq.query, hq.fragment, hq.names, hq.headers, hq.sorted⟩⟩
  case httpVersion =>
    obtain rfl := Option.some.inj hk
    obtain rfl := Option.some.inj hs
    unfold onRequestVersion
    split_ifs
    all_goals
      exact ⟨⟨h.mark, h.field_start, h.field, h.query_start⟩,
        ⟨hq.path, hq.query, hq.fragment, hq.names, hq.headers, hq.sorted⟩⟩
  case fragment =>
    simp only [Clean.act] at hk
    split_ifs at hk with hclean
    obtain rfl := Option.some.inj hk
    obtain rfl := Option.some.inj hs
    exact ⟨⟨h.mark, h.field_start, h.field, h.query_start⟩,
      ⟨hq.path, hq.query, h.mark hclean, hq.names, hq.headers, hq.sorted⟩⟩
  case requestPath =>
    simp only [Clean.act] at hk
    split_ifs at hk with hclean
    obtain rfl := Option.some.inj hk
    obtain rfl := Option.some.inj hs
    exact ⟨⟨h.mark, h.field_start, h.field, h.query_start⟩,
      ⟨h.mark hclean, hq.query, hq.fragment, hq.names, hq.headers, hq.sorted⟩⟩
  case queryString =>
    simp only [Clean.act] at hk
    split_ifs at hk with hclean
    obtain rfl := Option.some.inj hk
    simp only [Http.act] at hs
    split_ifs at hs
    obtain rfl := Option.some.inj hs
    exact ⟨⟨h.mark, h.field_start, h.field, h.query_start⟩,
      ⟨hq.path, h.query_start hclean, hq.fragment, hq.names, hq.headers, hq.sorted⟩⟩

theorem acts_sound (h : Sound mem p k s) (hq : Tidy s.m_data) (hk : Clean.acts as k = some k')
    (hs : acts mem p as s = some s') : Sound mem p k' s' ∧ Tidy s'.m_data := by
  induction as generalizing k s with
  | nil =>
    obtain rfl := Option.some.inj hs
    obtain rfl := Option.some.inj hk
    exact ⟨h, hq⟩
  | cons a as ih =>
    obtain ⟨t, ht, hs⟩ := acts_cons hs
    obtain ⟨j, hj, hk⟩ := Option.bind_eq_some_iff.mp hk
    obtain ⟨hsound, htidy⟩ := act_sound h hq hj ht
    exact ih hsound htidy hk hs

/-- **One `execute`.** -/
theorem run_tidy (hsafe : Safe M s.cs k) (h : Sound mem p k s) (hq : Tidy s.m_data)
    (hmem : bytes <+: mem.drop p) (hrun : run M mem p bytes s = some (p', s')) :
    Tidy s'.m_data ∧
      (s'.cs ≠ M.error → s'.cs < M.first_final → ∃ k', Safe M s'.cs k') := by
  induction bytes generalizing p s k with
  | nil =>
    obtain ⟨-, rfl⟩ := Prod.mk.inj (Option.some.inj hrun)
    exact ⟨hq, fun _ _ => ⟨k, hsafe⟩⟩
  | cons b bytes ih =>
    obtain ⟨rest, hrest⟩ := hmem
    have hb : mem[p]? = some b := by
      rw [← Nat.add_zero p, ← List.getElem?_drop, ← hrest]
      rfl
    have hmem' : bytes <+: mem.drop (p + 1) := by
      refine ⟨rest, ?_⟩
      rw [← List.drop_drop, ← hrest]
      rfl
    rcases run_cons hrun with ⟨-, -, rfl⟩ | ⟨hne, t, ht, hend⟩
    · exact ⟨hq, fun herr _ => absurd rfl herr⟩
    · obtain ⟨k', hk', hsafe'⟩ := safe_next hsafe hne
      obtain ⟨hsound, htidy⟩ := acts_sound h hq hk' ht
      rcases hend with ⟨hfin, -, rfl⟩ | ⟨hlive, hrun⟩
      · exact ⟨htidy, fun _ hlive => absurd hfin (not_le.mpr hlive)⟩
      · have hdone := mt (M.done_final s.cs b).mp (not_le.mpr hlive)
        exact ih (s := { t with cs := (M.next s.cs b).1 }) (hsafe' hdone) (hsound.take hb _) htidy
          hmem' hrun

end

/-! ### A call of `recvRequest` -/

section

variable {M : Machine} {lexical_cast : Bytes → Option UInt64} {buff_size : Nat}
  {u : Uninit buff_size} {data data' : Bytes} {offset offset' : Nat} {s t : HttpRequestParser}
  {k : Clean} {all rest : List Bytes} {q : HttpRequest}
  {session session' : Session}

theorem recvHeader_tidy (hsafe : Safe M s.cs k) (hq : Tidy s.m_data)
    (hoffset : offset ≤ data.length)
    (h : recvHeader M buff_size data offset s all = some (.complete data' offset' t, rest)) :
    Tidy t.m_data := by
  induction all generalizing data offset s k with
  | nil =>
    rw [recvHeader] at h
    exact absurd (Prod.mk.inj (Option.some.inj h)).1 (by simp)
  | cons r all ih =>
    obtain ⟨p, data₁, s₁, hrun, herr, hlen, -, hend⟩ := recvHeader_cons hoffset h
    -- each `execute` begins with the flags of the state that the one before has reached
    have hmem : data.take offset ++ r <+: (write data offset r).drop 0 :=
      ⟨data.drop (offset + r.length), by rw [List.drop_zero, write]⟩
    obtain ⟨htidy, hsafe'⟩ := run_tidy (s := s.reset) hsafe (.reset _ k s) hq hmem hrun
    rcases hend with ⟨-, -, -, rfl⟩ | ⟨hlive, hrest⟩
    · exact htidy
    · obtain ⟨k', hsafe'⟩ := hsafe' herr hlive
      exact ih hsafe' htidy hlen hrest

/-- **A request that is returned** has clean tokens, and its header declares its body. -/
theorem recvRequest_tidy (hM : Lexical M)
    (h : recvRequest M lexical_cast u session = some (.request q, session')) :
    Tidy q ∧ (q.m_body ≠ [] → ∃ val, MapType.get q.m_headers (chars "content-length") =
      some val) := by
  obtain ⟨closed, all⟩ := session
  cases closed with
  | true => cases (Prod.mk.inj (Option.some.inj h)).1
  | false =>
    obtain ⟨data, offset, t, rest, hheader⟩ := complete_of_recvRequest h
    obtain ⟨results, hbody⟩ := recvBody_of_recvRequest hheader h
    have hsafe : Safe M (HttpRequestParser.new M u.query_start).cs .all := hM
    have htidy : Tidy t.m_data := recvHeader_tidy hsafe .new (Nat.zero_le _) hheader
    obtain ⟨-, -, -, -, hempty, -⟩ := recvHeader_fresh hheader
    obtain ⟨body, close, rfl, -, hnone⟩ := recvBody_request hbody
    refine ⟨⟨htidy.path, htidy.query, htidy.fragment, htidy.names, htidy.headers, htidy.sorted⟩,
      fun hne => ?_⟩
    have hlength : contentLength lexical_cast t.m_data ≠ 0 := by
      intro hzero
      exact hne ((hnone (by omega)).trans hempty)
    obtain ⟨n, hn⟩ := exists_declared hlength
    obtain ⟨val, hval, -⟩ := Option.bind_eq_some_iff.mp hn
    exact ⟨val, hval⟩

end

end LimWebserver.Http
