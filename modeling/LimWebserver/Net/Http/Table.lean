import LimWebserver.Net.Http.Registers

namespace LimWebserver.Http

open HttpRequestParser

/-!
# Http — a part of the generated table

The states of `http11_parser.cpp` that a request `GET /` with any headers goes through, with their
numbers there; every byte that such a request does not have there is an error.

* `Table.next`, `Table.machine` — the transitions;
* `Table.walk_isSome` — which registers are set in which state;
* `Table.run_method` — the method is `GET` all the time;
* `Table.grammar` — so the part is one that `http11_parser.rl` allows;
* `accepts_of_test`, `decimal` — for evaluating calls that use it.
-/

namespace Table

/-- The bytes of the header names that are used here. -/
def token (b : UInt8) : Bool := (65 ≤ b && b ≤ 90) || (97 ≤ b && b ≤ 122) || b == 45

def next (cs : Nat) (b : UInt8) : Nat × List ParserAction :=
  match cs with
  | 1 => if b = 71 then (2, [.mark]) else (0, [])
  | 2 => if b = 69 then (175, []) else (0, [])
  | 175 => if b = 84 then (176, []) else (0, [])
  | 176 => if b = 32 then (3, [.requestMethod]) else (0, [])
  | 3 => if b = 47 then (33, [.mark]) else (0, [])
  | 33 => if b = 32 then (4, [.requestPath, .requestUri]) else (0, [])
  | 4 => if b = 72 then (5, [.mark]) else (0, [])
  | 5 => if b = 84 then (6, []) else (0, [])
  | 6 => if b = 84 then (7, []) else (0, [])
  | 7 => if b = 80 then (8, []) else (0, [])
  | 8 => if b = 47 then (9, []) else (0, [])
  | 9 => if b = 49 then (10, []) else (0, [])
  | 10 => if b = 46 then (11, []) else (0, [])
  | 11 => if b = 48 ∨ b = 49 then (12, []) else (0, [])
  | 12 => if b = 13 then (17, [.httpVersion]) else (0, [])
  | 17 => if b = 10 then (13, []) else (0, [])
  | 13 =>
    if b = 13 then (18, [.startField])
    else if token b then (14, [.startField]) else (0, [])
  -- the empty line ends the header
  | 18 => if b = 10 then (348, [.done]) else (0, [])
  | 14 =>
    if b = 58 then (15, [.writeField])
    else if token b then (14, []) else (0, [])
  | 15 =>
    if b = 32 then (15, [.startValue])
    else if b = 0 ∨ b = 9 ∨ b = 10 ∨ b = 13 ∨ b = 127 then (0, []) else (16, [.startValue])
  | 16 =>
    if b = 13 then (17, [.writeValue])
    else if b = 0 ∨ b = 10 ∨ b = 127 then (0, []) else (16, [])
  | _ => (0, [])

theorem next_done (cs : Nat) (b : UInt8) :
    .done ∈ (next cs b).2 ↔ 348 ≤ (next cs b).1 := by
  unfold next
  split <;> (try split_ifs) <;> simp

theorem next_method {cs : Nat} {b : UInt8} (h : .requestMethod ∈ (next cs b).2) :
    cs = 176 ∧ b = 32 ∧ next cs b = (3, [.requestMethod]) := by
  unfold next at h ⊢
  split at h <;> (try split_ifs at h) <;> simp_all

/-- `start`, `error` and `first_final` are those of `http11_parser.cpp`. -/
def machine : Machine where
  start := 1
  error := 0
  first_final := 348
  next := next
  start_lt := by decide
  error_lt := by decide
  start_ne := by decide
  next_error := fun _ => rfl
  next_zero := rfl
  done_final := next_done
  method_blank := fun cs b h => by
    obtain ⟨-, hb, hnext⟩ := next_method h
    exact ⟨hb, by rw [hnext]⟩

/-- The registers that are set in a state. -/
def HasSet (cs : Nat) (k : Known) : Prop :=
  (cs ≠ 0 → cs ≠ 1 → cs ≠ 348 → k.mark = true) ∧
    (cs ∈ [14, 15, 16, 18] → k.field_start = true) ∧ (cs ∈ [15, 16] → k.field_len = true)

theorem hasSet_next {cs : Nat} {k : Known} (h : HasSet cs k) (b : UInt8) :
    ∃ k', Known.acts (next cs b).2 k = some k' ∧ HasSet (next cs b).1 k' := by
  unfold HasSet at h ⊢
  unfold next
  split <;> (try split_ifs) <;> simp_all [Known.acts, Known.act]

theorem walk_isSome {cs : Nat} {k : Known} (h : HasSet cs k) (bytes : Bytes) :
    (Known.walk machine cs k bytes).isSome := by
  induction bytes generalizing cs k with
  | nil => rfl
  | cons b bytes ih =>
    obtain ⟨k', hk', hset⟩ := hasSet_next h b
    show ((Known.acts (next cs b).2 k).bind _).isSome
    rw [hk', Option.bind_some]
    exact ih hset

theorem next_ne_start (cs : Nat) (b : UInt8) : (next cs b).1 ≠ 1 := by
  unfold next
  split <;> (try split_ifs) <;> simp

theorem next_second {cs : Nat} {b : UInt8} (h : (next cs b).1 = 2) :
    cs = 1 ∧ b = 71 ∧ next cs b = (2, [.mark]) := by
  unfold next at h ⊢
  split at h <;> (try split_ifs at h) <;> simp_all

theorem next_third {cs : Nat} {b : UInt8} (h : (next cs b).1 = 175) :
    cs = 2 ∧ b = 69 ∧ next cs b = (175, []) := by
  unfold next at h ⊢
  split at h <;> (try split_ifs at h) <;> simp_all

theorem next_blank {cs : Nat} {b : UInt8} (h : (next cs b).1 = 176) :
    cs = 175 ∧ b = 84 ∧ next cs b = (176, []) := by
  unfold next at h ⊢
  split at h <;> (try split_ifs at h) <;> simp_all

/-- The method before and behind its blank: `pre` is what has been taken. -/
structure Early (pre : Bytes) (s : HttpRequestParser) : Prop where
  method : s.m_data.m_method = .GET
  first : s.cs = 1 → pre = []
  second : s.cs = 2 → pre = chars "G" ∧ s.mark = 0
  third : s.cs = 175 → pre = chars "GE" ∧ s.mark = 0
  blank : s.cs = 176 → pre = chars "GET" ∧ s.mark = 0

theorem charsToHttpMethod_get (rest : Bytes) :
    charsToHttpMethod (chars "GET" ++ 32 :: rest) = .GET :=
  have h : charsToHttpMethod (chars "GET" ++ 32 :: []) = .GET := by decide +kernel
  charsToHttpMethod_congr h (by decide) (by decide)

theorem early_next {pre post : Bytes} {b : UInt8} {s u : HttpRequestParser} (h : Early pre s)
    (hu : acts (pre ++ b :: post) pre.length (next s.cs b).2 s = some u) :
    Early (pre ++ [b]) { u with cs := (next s.cs b).1 } := by
  have hmethod : u.m_data.m_method = .GET := by
    by_cases ha : .requestMethod ∈ (next s.cs b).2
    · -- the method is read at the blank behind `GET`
      obtain ⟨hcs, rfl, hnext⟩ := next_method ha
      obtain ⟨rfl, hmark⟩ := h.blank hcs
      rw [hnext] at hu
      obtain rfl : s.onRequestMethod ((chars "GET" ++ 32 :: post).drop s.mark) = u :=
        Option.some.inj hu
      rw [hmark, List.drop_zero, onRequestMethod, charsToHttpMethod_get]
    · exact (acts_method ha hu).trans h.method
  refine ⟨hmethod, fun hn => absurd hn (next_ne_start _ _), fun hn => ?_, fun hn => ?_,
    fun hn => ?_⟩
  -- each of the three states is entered from the one before it, by its letter
  · obtain ⟨hcs, rfl, hnext⟩ := next_second hn
    rw [hnext] at hu
    obtain rfl := Option.some.inj hu
    rw [h.first hcs]
    exact ⟨rfl, rfl⟩
  · obtain ⟨hcs, rfl, hnext⟩ := next_third hn
    rw [hnext] at hu
    obtain rfl := Option.some.inj hu
    obtain ⟨rfl, hmark⟩ := h.second hcs
    exact ⟨rfl, hmark⟩
  · obtain ⟨hcs, rfl, hnext⟩ := next_blank hn
    rw [hnext] at hu
    obtain rfl := Option.some.inj hu
    obtain ⟨rfl, hmark⟩ := h.third hcs
    exact ⟨rfl, hmark⟩

theorem run_method {pre xs ys : Bytes} {p : Nat} {s t : HttpRequestParser} (h : Early pre s)
    (hrun : run machine (pre ++ xs ++ ys) pre.length xs s = some (p, t)) :
    t.m_data.m_method = .GET := by
  induction xs generalizing pre s with
  | nil =>
    obtain ⟨-, rfl⟩ := Prod.mk.inj (Option.some.inj hrun)
    exact h.method
  | cons b xs ih =>
    have hmem : pre ++ b :: xs ++ ys = pre ++ b :: (xs ++ ys) := by simp
    rcases run_cons hrun with ⟨-, -, rfl⟩ | ⟨-, u, hu, hend⟩
    · exact h.method
    rw [hmem] at hu
    have hnext := early_next h hu
    rcases hend with ⟨-, -, rfl⟩ | ⟨-, hrun⟩
    · exact hnext.method
    · have hmem' : pre ++ b :: xs ++ ys = pre ++ [b] ++ xs ++ ys := by simp
      have hlen : pre.length + 1 = (pre ++ [b]).length := by simp
      rw [hmem', hlen] at hrun
      exact ih hnext hrun

theorem grammar : Grammar machine where
  whole := fun {bytes q} _ => by
    have hset : HasSet 1 .none := ⟨fun _ h => absurd rfl h, by decide, by decide⟩
    obtain ⟨cs, hcs⟩ := Option.isSome_iff_exists.mp (walk_isSome hset bytes)
    replace hcs : Known.walk machine machine.start .none bytes = some cs := hcs
    simp only [uncut, hcs]
  no_msearch := fun {bytes x y query_start p s t} _ _ _ hsplit hrun hms => by
    have hstart : Early [] (HttpRequestParser.new machine query_start) :=
      ⟨rfl, fun _ => rfl, fun h => absurd (show 1 = 2 from h) (by decide),
        fun h => absurd (show 1 = 175 from h) (by decide),
        fun h => absurd (show 1 = 176 from h) (by decide)⟩
    rw [hsplit] at hrun
    exact absurd ((run_method hstart hrun).symm.trans hms) (by decide)

/-- Whether the bytes are a complete header that says `q`. -/
def test (bytes : Bytes) (q : HttpRequest) : Bool :=
  match (HttpRequestParser.new machine 0).execute machine bytes bytes.length with
  | some (n, _, s) => n = bytes.length && !s.hasError machine && s.isFinished machine = 1 &&
      s.m_data = q
  | none => false

theorem accepts_of_test {bytes : Bytes} {q : HttpRequest} (h : test bytes q = true) :
    Accepts machine bytes q := by
  unfold test at h
  split at h
  case h_2 => exact absurd h Bool.false_ne_true
  case h_1 n data s hs =>
    simp only [Bool.and_eq_true, decide_eq_true_eq, Bool.not_eq_true'] at h
    obtain ⟨⟨⟨rfl, herr⟩, hfin⟩, hq⟩ := h
    exact ⟨0, data, s, hs, herr, hfin, hq⟩

/-- `lexical_cast` of a row of digits. -/
def decimal (text : Bytes) : Option UInt64 :=
  if text = [] then none
  else
    text.foldlM (fun n b => if 48 ≤ b ∧ b ≤ 57 then some (10 * n + (b - 48).toUInt64) else none) 0

/-- `new char[4096]`, with zeros in it. -/
def zeros : Uninit 4096 := ⟨List.replicate 4096 0, List.length_replicate, 0⟩

end Table

end LimWebserver.Http
