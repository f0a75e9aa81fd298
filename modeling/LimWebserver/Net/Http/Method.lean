import LimWebserver.Net.Http.Parser

namespace LimWebserver.Http

open HttpRequestParser

/-!
# Http — the method of a request

`on_request_method` is given a token and its length, and looks for the first method whose name the
memory at the token begins with.

* `Begins` — some name begins the memory; `strncmp_iff` — the comparison says so;
* `Handled` — what the callback is to do with a token;
* `httpMethodMap_prefixFree` — no name begins another one;
* `begins_blank` — the tokens that the parser hands over end at a blank;
* `onRequestMethod_longer` — a token that is longer than a name; `handled_iff` — all tokens.
-/

/-- A method's name begins the memory. -/
def Begins (mem : Bytes) : Prop := ∃ e ∈ httpMethodMap, e.2 <+: mem

/-- The token is a method's name. -/
def Named (token : Bytes) : Prop := ∃ m, (m, token) ∈ httpMethodMap

instance (mem : Bytes) : Decidable (Begins mem) :=
  inferInstanceAs (Decidable (∃ e ∈ httpMethodMap, e.2 <+: mem))

/-- **What is to be done with a token**, in front of any bytes: the method is set if the token is
    its name, and otherwise the error, and nothing else. -/
def Handled (token rest : Bytes) (s : HttpRequestParser) : Prop :=
  (∀ m, (m, token) ∈ httpMethodMap →
    s.onRequestMethod (token ++ rest) = { s with m_data := { s.m_data with m_method := m } }) ∧
  (¬ Named token → s.onRequestMethod (token ++ rest) = s.setError 1000)

section Search

variable {name token rest mem : Bytes} {m : HttpMethod} {e e' : HttpMethod × Bytes}

/-- A name without a zero is compared as a prefix. -/
theorem strncmp_iff (h : (0 : UInt8) ∉ name) :
    strncmp name.length name mem = true ↔ name <+: mem := by
  induction name generalizing mem with
  | nil => simp [strncmp]
  | cons x name ih =>
    obtain ⟨hx, hname⟩ := not_or.mp (mt List.mem_cons.mpr h)
    have hx' : (x == 0) = false := beq_eq_false_iff_ne.mpr (Ne.symm hx)
    rw [List.length_cons, strncmp, List.headD_cons, List.tail_cons, hx', Bool.false_or,
      Bool.and_eq_true, beq_iff_eq]
    cases mem with
    | nil => exact iff_of_false (fun h0 => hx h0.1.symm) (by simp)
    | cons y mem => rw [List.headD_cons, List.tail_cons, ih hname, List.cons_prefix_cons]

theorem httpMethodMap_nul : ∀ e ∈ httpMethodMap, (0 : UInt8) ∉ e.2 ∧ e.1 ≠ .INVALID_METHOD := by
  decide +kernel

/-- No name begins another one. -/
theorem httpMethodMap_prefixFree :
    ∀ e ∈ httpMethodMap, ∀ e' ∈ httpMethodMap, e.2 <+: e'.2 → e = e' := by
  decide +kernel

/-- At most one name begins a memory. -/
theorem entry_of_begins (he : e ∈ httpMethodMap) (he' : e' ∈ httpMethodMap) (h : e.2 <+: mem)
    (h' : e'.2 <+: mem) : e = e' := by
  rcases List.prefix_or_prefix_of_prefix h h' with hpre | hpre
  · exact httpMethodMap_prefixFree e he e' he' hpre
  · exact (httpMethodMap_prefixFree e' he' e he hpre).symm

theorem charsToHttpMethod_of_begins (he : e ∈ httpMethodMap) (h : e.2 <+: mem) :
    charsToHttpMethod mem = e.1 := by
  unfold charsToHttpMethod
  cases hfind : httpMethodMap.find? fun e => strncmp e.2.length e.2 mem with
  | none =>
    have hnone := List.find?_eq_none.mp hfind e he
    exact absurd ((strncmp_iff (httpMethodMap_nul e he).1).mpr h) hnone
  | some e' =>
    have he' := List.mem_of_find?_eq_some hfind
    have hfound : strncmp e'.2.length e'.2 mem = true := by simpa using List.find?_some hfind
    have hpre := (strncmp_iff (httpMethodMap_nul e' he').1).mp hfound
    rw [entry_of_begins he he' h hpre]

theorem charsToHttpMethod_of_not (h : ¬ Begins mem) : charsToHttpMethod mem = .INVALID_METHOD := by
  have hnone : (httpMethodMap.find? fun e => strncmp e.2.length e.2 mem) = none := by
    refine List.find?_eq_none.mpr fun e he hcmp => h ⟨e, he, ?_⟩
    exact (strncmp_iff (httpMethodMap_nul e he).1).mp hcmp
  rw [charsToHttpMethod, hnone]

theorem onRequestMethod_of_begins (he : e ∈ httpMethodMap) (h : e.2 <+: mem)
    (s : HttpRequestParser) :
    s.onRequestMethod mem = { s with m_data := { s.m_data with m_method := e.1 } } := by
  have hne := (httpMethodMap_nul e he).2
  rw [onRequestMethod, charsToHttpMethod_of_begins he h]
  split
  case h_1 hinvalid => exact absurd hinvalid hne
  case h_2 => rfl

theorem onRequestMethod_of_not (h : ¬ Begins mem) (s : HttpRequestParser) :
    s.onRequestMethod mem = s.setError 1000 := by
  rw [onRequestMethod, charsToHttpMethod_of_not h]

/-- **Behind the parser's tokens** there is a blank, and so the bytes behind it matter to
    `M - SEARCH` only. -/
theorem begins_blank (h : (32 : UInt8) ∉ token) : Begins (token ++ 32 :: rest) ↔
    (∃ e ∈ httpMethodMap, e.2 <+: token) ∨ (token = chars "M" ∧ chars "- SEARCH" <+: rest) := by
  constructor
  · rintro ⟨e, he, hpre⟩
    by_cases hm : e.1 = .MSEARCH
    · rw [httpMethodMap_msearch e he hm] at hpre
      match token, h, hpre with
      | [], _, hpre => exact absurd (List.cons_prefix_cons.mp hpre).1 (by decide)
      | [x], _, hpre =>
        obtain ⟨hx, hpre⟩ := List.cons_prefix_cons.mp hpre
        exact .inr ⟨by rw [← hx]; rfl, (List.cons_prefix_cons.mp hpre).2⟩
      | x :: y :: token, h, hpre =>
        obtain ⟨-, hpre⟩ := List.cons_prefix_cons.mp hpre
        have hy := (List.cons_prefix_cons.mp hpre).1
        exact absurd (hy ▸ List.mem_cons_of_mem x List.mem_cons_self) h
    · obtain ⟨h0, h32, -⟩ := httpMethodMap_names e he hm
      exact .inl ⟨e, he, (strncmp_iff_begins h0 h32).mp ((strncmp_iff h0).mpr hpre)⟩
  · rintro (⟨e, he, hpre⟩ | ⟨rfl, hpre⟩)
    · exact ⟨e, he, hpre.trans (List.prefix_append _ _)⟩
    · refine ⟨(.MSEARCH, chars "M - SEARCH"), by decide +kernel, ?_⟩
      exact List.cons_prefix_cons.mpr ⟨rfl, List.cons_prefix_cons.mpr ⟨rfl, hpre⟩⟩

end Search

/-- **A token that begins with a method's name** is taken for it. -/
theorem onRequestMethod_longer :
    ¬ ∀ token rest : Bytes, 1 ≤ token.length → token.length ≤ 20 →
      (∀ x ∈ token, (65 ≤ x ∧ x ≤ 90) ∨ (48 ≤ x ∧ x ≤ 57)) → ∀ s, Handled token rest s := by
  intro h
  obtain ⟨-, hother⟩ := h (chars "GETX") (chars " / HTTP/1.1") (by decide) (by decide)
    (by decide +kernel) ⟨0, 0, 0, 0, 0, .new, 0⟩
  have hnames : chars "GETX" ∉ httpMethodMap.map Prod.snd := by decide +kernel
  have hnot : ¬ Named (chars "GETX") := fun ⟨m, hm⟩ =>
    hnames (List.mem_map_of_mem (f := Prod.snd) hm)
  exact absurd (congrArg m_error (hother hnot)) (by decide +kernel)

/-- **The method of a token.** It is handled as it is to be, whatever the parser has read before,
    exactly if it is a method's name or no name begins the memory at it. -/
theorem handled_iff (token rest : Bytes) :
    (∀ s, Handled token rest s) ↔ Named token ∨ ¬ Begins (token ++ rest) := by
  constructor
  · intro h
    by_contra hcond
    obtain ⟨hnamed, hbegins⟩ := not_or.mp hcond
    obtain ⟨e, he, hpre⟩ := not_not.mp hbegins
    -- a parser without an error so far gets none
    have hcall := (h ⟨0, 0, 0, 0, 0, .new, 0⟩).2 hnamed
    rw [onRequestMethod_of_begins he hpre] at hcall
    exact absurd (congrArg m_error hcall) (Nat.succ_ne_zero _).symm
  · rintro (⟨m, hm⟩ | hnone) s
    · have hpre : token <+: token ++ rest := List.prefix_append _ _
      refine ⟨fun m' hm' => ?_, fun hnot => absurd ⟨m, hm⟩ hnot⟩
      exact onRequestMethod_of_begins hm' hpre s
    · refine ⟨fun m hm => absurd ⟨_, hm, List.prefix_append _ _⟩ hnone, fun _ => ?_⟩
      exact onRequestMethod_of_not hnone s

end LimWebserver.Http
