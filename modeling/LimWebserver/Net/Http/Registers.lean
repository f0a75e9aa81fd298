import LimWebserver.Net.Http.Session

namespace LimWebserver.Http

open HttpRequestParser

/-!
# Http — the registers of one `execute`

`mark`, `field_start` and `query_start` are offsets into the buffer of one call of `execute`.

* `Known`, `Known.act` — which registers a call has set itself, and which of them an action reads;
* `uncut` — no action in a list of calls reads a register that its own call has not set;
* `Grammar` — what `http11_parser.rl` says of complete headers;
* `Sim` — the same bytes at two places in two buffers, with the offsets that differ by the distance;
* `run_sim` — two such runs go on side by side as long as only known registers are read.
-/

/-- The registers that the current call of `execute` has set. -/
structure Known where
  mark : Bool
  field_start : Bool
  field_len : Bool
  query_start : Bool
  deriving DecidableEq, Repr

namespace Known

/-- At the beginning of a call. -/
def none : Known := ⟨false, false, false, false⟩

/-- What is known behind an action, if it reads known registers only. -/
def act (k : Known) : ParserAction → Option Known
  | .mark => some { k with mark := true }
  | .startField => some { k with field_start := true, field_len := false }
  | .writeField => some { k with field_len := k.field_start }
  | .startValue => some { k with mark := true }
  | .writeValue => if k.field_start ∧ k.field_len ∧ k.mark then some k else .none
  | .requestMethod => if k.mark then some k else .none
  | .requestUri => some k
  | .fragment => if k.mark then some k else .none
  | .startQuery => some { k with query_start := true }
  | .queryString => if k.query_start then some k else .none
  | .httpVersion => if k.mark then some k else .none
  | .requestPath => if k.mark then some k else .none
  | .done => some k

def acts : List ParserAction → Known → Option Known
  | [], k => some k
  | a :: as, k => (k.act a).bind (acts as)

/-- The state behind a piece that only known registers are read in. -/
def walk (M : Machine) : Nat → Known → Bytes → Option Nat
  | cs, _, [] => some cs
  | cs, k, b :: bytes =>
    (acts (M.next cs b).2 k).bind fun k' => walk M (M.next cs b).1 k' bytes

end Known

/-- **No token is cut.** In every piece, no action reads a register that is not set in the piece. -/
def uncut (M : Machine) : Nat → List Bytes → Bool
  | _, [] => true
  | cs, r :: pieces =>
    match Known.walk M cs .none r with
    | some cs' => uncut M cs' pieces
    | none => false

/-- What `http11_parser.rl` says of the complete headers. -/
structure Grammar (M : Machine) : Prop where
  /-- the beginning of a token is recorded before it is used -/
  whole : ∀ {bytes : Bytes} {q : HttpRequest}, Accepts M bytes q → uncut M M.start [bytes]
  /-- the grammar takes no `- SEARCH` behind the blank of a method -/
  no_msearch : ∀ {bytes x y : Bytes} {query_start p : Nat} {s t : HttpRequestParser},
    run M bytes 0 bytes (.new M query_start) = some (bytes.length, s) → M.first_final ≤ s.cs →
      s.m_error = 0 → bytes = x ++ y → run M bytes 0 x (.new M query_start) = some (p, t) →
        t.m_data.m_method ≠ .MSEARCH

/-! ### The same bytes in two buffers -/

section Sim

variable {pre r post z : Bytes} {a n p : Nat}

theorem drop_shift (h : a ≤ r.length) :
    (pre ++ r ++ post).drop (pre.length + a) = r.drop a ++ post := by
  rw [List.append_assoc, List.drop_append, List.drop_of_length_le (by omega), List.nil_append,
    Nat.add_sub_cancel_left, List.drop_append_of_le_length h]

theorem take_drop_shift (h : a + n ≤ r.length) :
    ((pre ++ r ++ post).drop (pre.length + a)).take n = ((r ++ z).drop a).take n := by
  rw [drop_shift (by omega), List.drop_append_of_le_length (by omega),
    List.take_append_of_le_length (by rw [List.length_drop]; omega),
    List.take_append_of_le_length (by rw [List.length_drop]; omega)]

theorem strncmp_take (n : Nat) (x y : Bytes) : strncmp n (x.take n) y = strncmp n x y := by
  induction n generalizing x y with
  | zero => rfl
  | succ n ih => cases x <;> simp [strncmp, ih]

/-- A callback of the text `length` bytes long. -/
theorem onRequestVersion_congr {s : HttpRequestParser} {x y : Bytes} (h : x.take n = y.take n) :
    s.onRequestVersion x n = s.onRequestVersion y n := by
  unfold onRequestVersion
  rw [← strncmp_take n x, ← strncmp_take n x, h, strncmp_take, strncmp_take]

/-- The parser `s` has the bytes `r` behind `pre` in its buffer, `t` has them at the beginning; both
    are at the byte `p` of `r`. -/
structure Sim (pre : Bytes) (p : Nat) (k : Known) (s t : HttpRequestParser) : Prop where
  cs : s.cs = t.cs
  data : s.m_data = t.m_data
  error : s.m_error = 0 ∧ t.m_error = 0
  mark : k.mark → s.mark = pre.length + t.mark ∧ t.mark ≤ p
  field_start : k.field_start → s.field_start = pre.length + t.field_start ∧ t.field_start ≤ p
  field_len : k.field_len → s.field_len = t.field_len ∧ t.field_start + t.field_len ≤ p
  query_start : k.query_start → s.query_start = pre.length + t.query_start ∧ t.query_start ≤ p

namespace Sim

variable {k k' : Known} {s s' t : HttpRequestParser}

theorem mono {p' : Nat} (h : Sim pre p k s t) (hp : p ≤ p') : Sim pre p' k s t where
  cs := h.cs
  data := h.data
  error := h.error
  mark := fun hk => ⟨(h.mark hk).1, (h.mark hk).2.trans hp⟩
  field_start := fun hk => ⟨(h.field_start hk).1, (h.field_start hk).2.trans hp⟩
  field_len := fun hk => ⟨(h.field_len hk).1, (h.field_len hk).2.trans hp⟩
  query_start := fun hk => ⟨(h.query_start hk).1, (h.query_start hk).2.trans hp⟩

theorem setData {q q' : HttpRequest} (h : Sim pre p k s t) (hq : q = q') :
    Sim pre p k { s with m_data := q } { t with m_data := q' } :=
  ⟨h.cs, hq, h.error, h.mark, h.field_start, h.field_len, h.query_start⟩

theorem setCs (h : Sim pre p k s t) (cs : Nat) :
    Sim pre p k { s with cs := cs } { t with cs := cs } :=
  ⟨rfl, h.data, h.error, h.mark, h.field_start, h.field_len, h.query_start⟩

/-- What a call knows at its beginning. -/
theorem start (hcs : s.cs = t.cs) (hdata : s.m_data = t.m_data)
    (herr : s.m_error = 0 ∧ t.m_error = 0) : Sim pre 0 .none s t where
  cs := hcs
  data := hdata
  error := herr
  mark := fun hk => absurd hk (by decide)
  field_start := fun hk => absurd hk (by decide)
  field_len := fun hk => absurd hk (by decide)
  query_start := fun hk => absurd hk (by decide)

/-- The text from a known `mark` on is the same in both buffers. -/
theorem mark_text (h : Sim pre p k s t) (hk : k.mark) (hp : p ≤ r.length) :
    ((pre ++ r ++ post).drop s.mark).take (pre.length + p - s.mark) =
      ((r ++ z).drop t.mark).take (p - t.mark) := by
  obtain ⟨hm, hle⟩ := h.mark hk
  rw [hm, Nat.add_sub_add_left, take_drop_shift (by omega)]

/-- **One action other than the method.** -/
theorem act {a : ParserAction} (h : Sim pre p k s t) (ha : a ≠ .requestMethod)
    (hk : k.act a = some k') (hp : p ≤ r.length)
    (hs : Http.act (pre ++ r ++ post) (pre.length + p) s a = some s') (herr : s'.m_error = 0) :
    ∃ t', Http.act (r ++ z) p t a = some t' ∧ Sim pre p k' s' t' := by
  cases a
  case requestMethod => exact absurd rfl ha
  case requestUri | done =>
    obtain rfl := Option.some.inj hs
    obtain rfl := Option.some.inj hk
    exact ⟨t, rfl, h⟩
  case mark | startValue =>
    obtain rfl := Option.some.inj hs
    obtain rfl := Option.some.inj hk
    exact ⟨_, rfl, { h with mark := fun _ => ⟨rfl, le_rfl⟩ }⟩
  case startField =>
    obtain rfl := Option.some.inj hs
    obtain rfl := Option.some.inj hk
    exact ⟨_, rfl, { h with
      field_start := fun _ => ⟨rfl, le_rfl⟩
      field_len := fun hk => absurd hk Bool.false_ne_true }⟩
  case startQuery =>
    obtain rfl := Option.some.inj hs
    obtain rfl := Option.some.inj hk
    exact ⟨_, rfl, { h with query_start := fun _ => ⟨rfl, le_rfl⟩ }⟩
  case writeField =>
    obtain rfl := Option.some.inj hs
    obtain rfl := Option.some.inj hk
    refine ⟨_, rfl, { h with field_len := fun hk => ?_ }⟩
    obtain ⟨hf, hle⟩ := h.field_start hk
    exact ⟨by show pre.length + p - s.field_start = p - t.field_start; omega,
      by show t.field_start + (p - t.field_start) ≤ p; omega⟩
  case writeValue =>
    simp only [Known.act] at hk
    split_ifs at hk with hknown
    obtain rfl := Option.some.inj hk
    obtain rfl := Option.some.inj hs
    obtain ⟨hf, -⟩ := h.field_start hknown.1
    obtain ⟨hl, hle⟩ := h.field_len hknown.2.1
    refine ⟨_, rfl, ?_⟩
    unfold onRequestHttpField
    by_cases h0 : t.field_len = 0
    · rw [if_pos (hl.trans h0), if_pos h0]
      exact h
    · rw [if_neg (hl ▸ h0), if_neg h0]
      apply h.setData
      rw [h.data, hl, h.mark_text (z := z) hknown.2.2 hp, hf,
        take_drop_shift (z := z) (by omega)]
  case fragment =>
    simp only [Known.act] at hk
    split_ifs at hk with hknown
    obtain rfl := Option.some.inj hk
    obtain rfl := Option.some.inj hs
    refine ⟨_, rfl, h.setData ?_⟩
    rw [h.data, h.mark_text (z := z) hknown hp]
  case requestPath =>
    simp only [Known.act] at hk
    split_ifs at hk with hknown
    obtain rfl := Option.some.inj hk
    obtain rfl := Option.some.inj hs
    refine ⟨_, rfl, h.setData ?_⟩
    rw [h.data, h.mark_text (z := z) hknown hp]
  case queryString =>
    simp only [Known.act] at hk
    split_ifs at hk with hknown
    obtain rfl := Option.some.inj hk
    simp only [Http.act] at hs ⊢
    split_ifs at hs with hlt
    obtain rfl := Option.some.inj hs
    obtain ⟨hq, hle⟩ := h.query_start hknown
    refine ⟨_, if_pos hle, h.setData ?_⟩
    rw [h.data, hq, Nat.add_sub_add_left, take_drop_shift (z := z) (by omega)]
  case httpVersion =>
    simp only [Known.act] at hk
    split_ifs at hk with hknown
    obtain rfl := Option.some.inj hk
    obtain rfl := Option.some.inj hs
    refine ⟨_, rfl, ?_⟩
    obtain ⟨hm, hle⟩ := h.mark hknown
    have htext : ((pre ++ r ++ post).drop s.mark).take (pre.length + p - s.mark) =
        ((r ++ z).drop t.mark).take (p - t.mark) := h.mark_text hknown hp
    rw [hm, Nat.add_sub_add_left] at htext herr ⊢
    rw [onRequestVersion_congr htext] at herr ⊢
    unfold onRequestVersion at herr ⊢
    split_ifs at herr ⊢
    · exact h.setData (by rw [h.data])
    · exact h.setData (by rw [h.data])
    · exact absurd herr (by simp [setError])

/-- **The method.** The blank that ends it is there in both buffers. -/
theorem method {rest : Bytes} (h : Sim pre p k s t) (hk : k.mark) (hr : r.drop p = 32 :: rest)
    (herr : (s.onRequestMethod ((pre ++ r ++ post).drop s.mark)).m_error = 0)
    (hsearch : (s.onRequestMethod ((pre ++ r ++ post).drop s.mark)).m_data.m_method ≠ .MSEARCH) :
    Sim pre p k (s.onRequestMethod ((pre ++ r ++ post).drop s.mark))
      (t.onRequestMethod ((r ++ z).drop t.mark)) := by
  obtain ⟨hm, hle⟩ := h.mark hk
  have hp : p ≤ r.length := by
    by_contra hlt
    rw [List.drop_of_length_le (by omega)] at hr
    exact absurd hr (by simp)
  have htoken : r.drop t.mark = (r.drop t.mark).take (p - t.mark) ++ 32 :: rest := by
    rw [← hr]
    conv_lhs => rw [← List.take_append_drop (p - t.mark) (r.drop t.mark)]
    rw [List.drop_drop, Nat.add_sub_cancel' hle]
  have hleft : (pre ++ r ++ post).drop s.mark =
      (r.drop t.mark).take (p - t.mark) ++ 32 :: (rest ++ post) := by
    rw [hm, drop_shift (by omega)]
    conv_lhs => rw [htoken]
    rw [List.append_assoc, List.cons_append]
  have hright : (r ++ z).drop t.mark =
      (r.drop t.mark).take (p - t.mark) ++ 32 :: (rest ++ z) := by
    rw [List.drop_append_of_le_length (by omega)]
    conv_lhs => rw [htoken]
    rw [List.append_assoc, List.cons_append]
  rw [hleft] at herr hsearch ⊢
  rw [hright]
  unfold onRequestMethod at herr hsearch ⊢
  have hvalid : charsToHttpMethod ((r.drop t.mark).take (p - t.mark) ++ 32 :: (rest ++ post)) ≠
      .INVALID_METHOD := fun hinv => by simp [hinv, setError] at herr
  have hother : charsToHttpMethod ((r.drop t.mark).take (p - t.mark) ++ 32 :: (rest ++ post)) ≠
      .MSEARCH := fun hms => by simp [hms] at hsearch
  rw [charsToHttpMethod_congr rfl hvalid hother (z := rest ++ z)]
  split
  · exact absurd ‹_› hvalid
  · exact h.setData (by rw [h.data])

theorem acts {as : List ParserAction} (h : Sim pre p k s t) (ha : .requestMethod ∉ as)
    (hk : Known.acts as k = some k') (hp : p ≤ r.length)
    (hs : Http.acts (pre ++ r ++ post) (pre.length + p) as s = some s') (herr : s'.m_error = 0) :
    ∃ t', Http.acts (r ++ z) p as t = some t' ∧ Sim pre p k' s' t' := by
  induction as generalizing k s t with
  | nil =>
    obtain rfl := Option.some.inj hs
    obtain rfl := Option.some.inj hk
    exact ⟨t, rfl, h⟩
  | cons a as ih =>
    obtain ⟨hne, ha⟩ := not_or.mp (mt List.mem_cons.mpr ha)
    obtain ⟨k₁, hk₁, hk⟩ := Option.bind_eq_some_iff.mp hk
    obtain ⟨s₁, hs₁, hs⟩ := acts_cons hs
    obtain ⟨t₁, ht₁, h₁⟩ := h.act (z := z) (Ne.symm hne) hk₁ hp hs₁
      ((acts_keeps hs).2.2 herr)
    obtain ⟨t', ht', h'⟩ := ih h₁ ha hk hs
    exact ⟨t', by rw [Http.acts, ht₁, Option.bind_some, ht'], h'⟩

/-- **One byte.** -/
theorem transition {M : Machine} {b : UInt8} {rest : Bytes} (h : Sim pre p k s t)
    (hr : r.drop p = b :: rest) (hk : Known.acts (M.next s.cs b).2 k = some k')
    (hs : Http.acts (pre ++ r ++ post) (pre.length + p) (M.next s.cs b).2 s = some s')
    (herr : s'.m_error = 0) (hsearch : s'.m_data.m_method ≠ .MSEARCH) :
    ∃ t', Http.acts (r ++ z) p (M.next s.cs b).2 t = some t' ∧ Sim pre p k' s' t' := by
  have hp : p ≤ r.length := by
    by_contra hlt
    rw [List.drop_of_length_le (by omega)] at hr
    exact absurd hr (by simp)
  by_cases ha : .requestMethod ∈ (M.next s.cs b).2
  · obtain ⟨rfl, has⟩ := M.method_blank _ _ ha
    rw [has] at hk hs ⊢
    obtain rfl : s.onRequestMethod ((pre ++ r ++ post).drop s.mark) = s' := Option.some.inj hs
    simp only [Known.acts, Known.act] at hk
    split_ifs at hk with hknown
    · obtain rfl : k = k' := Option.some.inj hk
      exact ⟨_, rfl, h.method hknown hr herr hsearch⟩
    · exact absurd hk (by simp)
  · exact h.acts ha hk hp hs herr

/-- **A piece.** What is at the beginning of the buffer is taken as it is behind `pre`. -/
theorem run {M : Machine} {x y : Bytes} {cs : Nat} (hr : r = x ++ y)
    (h : Sim pre x.length k s t) (hk : Known.walk M s.cs k y = some cs)
    (hs : Http.run M (pre ++ r ++ post) (pre.length + x.length) y s =
      some (pre.length + r.length, s'))
    (herr : s'.m_error = 0)
    (hsearch : ∀ xs ys q u, y = xs ++ ys →
      Http.run M (pre ++ r ++ post) (pre.length + x.length) xs s = some (q, u) →
        u.m_data.m_method ≠ .MSEARCH) :
    ∃ t', Http.run M (r ++ z) x.length y t = some (r.length, t') ∧ cs = s'.cs ∧
      Sim pre 0 .none s' t' := by
  induction y generalizing x k s t with
  | nil =>
    obtain ⟨-, rfl⟩ := Prod.mk.inj (Option.some.inj hs)
    refine ⟨t, ?_, (Option.some.inj hk).symm, .start h.cs h.data h.error⟩
    rw [hr, List.append_nil]
    rfl
  | cons b y ih =>
    obtain ⟨k₁, hk₁, hk⟩ := Option.bind_eq_some_iff.mp hk
    have hdrop : r.drop x.length = b :: y := by rw [hr, List.drop_left]
    have hlen : r.length = x.length + (y.length + 1) := by rw [hr]; simp
    rcases run_cons hs with ⟨-, hp, -⟩ | ⟨hne, u, hu, hend⟩
    · omega
    have herx : u.m_error = 0 := by
      rcases hend with ⟨-, -, rfl⟩ | ⟨-, hrun⟩
      · exact herr
      · exact (run_keeps hrun).2 herr
    have hsearch₁ : u.m_data.m_method ≠ .MSEARCH := by
      by_cases hfin : M.first_final ≤ (M.next s.cs b).1
      · apply hsearch [b] y (pre.length + x.length + 1) { u with cs := (M.next s.cs b).1 } rfl
        rw [Http.run, if_neg hne, hu, Option.bind_some, if_pos ((M.done_final _ _).mpr hfin)]
      · apply hsearch [b] y (pre.length + x.length + 1) { u with cs := (M.next s.cs b).1 } rfl
        rw [Http.run, if_neg hne, hu, Option.bind_some, if_neg (mt (M.done_final _ _).mp hfin),
          Http.run]
    obtain ⟨v, hv, h₁⟩ := h.transition (z := z) hdrop hk₁ hu herx hsearch₁
    rcases hend with ⟨hfin, hp, rfl⟩ | ⟨hlive, hrun⟩
    · -- the header is complete, so `b` is the last byte of the piece
      obtain rfl : y = [] := List.eq_nil_of_length_eq_zero (by omega)
      refine ⟨{ v with cs := (M.next s.cs b).1 }, ?_, (Option.some.inj hk).symm, ?_⟩
      · rw [Http.run, ← h.cs, if_neg hne, hv, Option.bind_some,
          if_pos ((M.done_final _ _).mpr hfin), hlen]
        rfl
      · exact .start rfl h₁.data h₁.error
    · have hnext : (x ++ [b]).length = x.length + 1 := by simp
      have hdone : .done ∉ (M.next s.cs b).2 := mt (M.done_final _ _).mp (not_le.mpr hlive)
      have hstep : ∀ xs, Http.run M (pre ++ r ++ post) (pre.length + x.length) (b :: xs) s =
          Http.run M (pre ++ r ++ post) (pre.length + (x ++ [b]).length) xs
            { u with cs := (M.next s.cs b).1 } := by
        intro xs
        rw [Http.run, if_neg hne, hu, Option.bind_some, if_neg hdone, hnext, Nat.add_assoc]
      obtain ⟨t', ht', hcs, hsim⟩ := ih (x := x ++ [b]) (by rw [hr]; simp)
        ((h₁.setCs _).mono (by rw [hnext]; omega)) hk ((hstep y).symm.trans hs)
        (fun xs ys q w hxs hw => hsearch (b :: xs) ys q w (by rw [hxs]; rfl) ((hstep xs).trans hw))
      refine ⟨t', ?_, hcs, hsim⟩
      rw [Http.run, ← h.cs, if_neg hne, hv, Option.bind_some, if_neg hdone, ← hnext, ht']

end Sim

end Sim

end LimWebserver.Http
