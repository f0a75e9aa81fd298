import Mathlib.Data.List.Basic
import Mathlib.Data.List.Find
import Mathlib.Data.UInt

namespace LimWebserver.Http

/-!
# Http — methods and requests

* `strncmp`, `strcasecmp` — C strings in memory, as lists of bytes;
* `HttpMethod`, `charsToHttpMethod` — the table of the methods and the search in it, which reads on
  behind the token it is given;
* `MapType`, `HttpRequest` — a request as `recvRequest` fills it in.
-/

abbrev Bytes := List UInt8

/-- The bytes of a string literal. -/
def chars (s : String) : Bytes := s.toList.map fun c => c.toNat.toUInt8

/-- `strncmp(a, b, n) == 0`; what is not there reads as the terminating zero. -/
def strncmp : Nat → Bytes → Bytes → Bool
  | 0, _, _ => true
  | n + 1, a, b => a.headD 0 == b.headD 0 && (a.headD 0 == 0 || strncmp n a.tail b.tail)

def tolower (x : UInt8) : UInt8 := if 65 ≤ x ∧ x ≤ 90 then x + 32 else x

/-- `strcasecmp(a, b)` of two strings, each up to its first zero. -/
def strcasecmp : Bytes → Bytes → Ordering
  | [], b => if b.headD 0 = 0 then .eq else .lt
  | x :: a, b =>
    match compare (tolower x) (tolower (b.headD 0)) with
    | .eq => if x = 0 then .eq else strcasecmp a b.tail
    | o => o

inductive HttpMethod
  | DELETE | GET | HEAD | POST | PUT | CONNECT | OPTIONS | TRACE | COPY | LOCK | MKCOL | MOVE
  | PROPFIND | PROPPATCH | SEARCH | UNLOCK | BIND | REBIND | UNBIND | ACL | REPORT | MKACTIVITY
  | CHECKOUT | MERGE | MSEARCH | NOTIFY | SUBSCRIBE | UNSUBSCRIBE | PATCH | PURGE | MKCALENDAR
  | LINK | UNLINK | SOURCE | INVALID_METHOD
  deriving DecidableEq, Repr

/-- `HTTP_METHOD_MAP`; the preprocessor makes a string with blanks of `M - SEARCH`. -/
def httpMethodMap : List (HttpMethod × Bytes) :=
  [(.DELETE, chars "DELETE"), (.GET, chars "GET"), (.HEAD, chars "HEAD"), (.POST, chars "POST"),
    (.PUT, chars "PUT"), (.CONNECT, chars "CONNECT"), (.OPTIONS, chars "OPTIONS"),
    (.TRACE, chars "TRACE"), (.COPY, chars "COPY"), (.LOCK, chars "LOCK"),
    (.MKCOL, chars "MKCOL"), (.MOVE, chars "MOVE"), (.PROPFIND, chars "PROPFIND"),
    (.PROPPATCH, chars "PROPPATCH"), (.SEARCH, chars "SEARCH"), (.UNLOCK, chars "UNLOCK"),
    (.BIND, chars "BIND"), (.REBIND, chars "REBIND"), (.UNBIND, chars "UNBIND"),
    (.ACL, chars "ACL"), (.REPORT, chars "REPORT"), (.MKACTIVITY, chars "MKACTIVITY"),
    (.CHECKOUT, chars "CHECKOUT"), (.MERGE, chars "MERGE"), (.MSEARCH, chars "M - SEARCH"),
    (.NOTIFY, chars "NOTIFY"), (.SUBSCRIBE, chars "SUBSCRIBE"),
    (.UNSUBSCRIBE, chars "UNSUBSCRIBE"), (.PATCH, chars "PATCH"), (.PURGE, chars "PURGE"),
    (.MKCALENDAR, chars "MKCALENDAR"), (.LINK, chars "LINK"), (.UNLINK, chars "UNLINK"),
    (.SOURCE, chars "SOURCE")]

/-- `CharsToHttpMethod`: the first method whose name the memory from `m` on begins with. -/
def charsToHttpMethod (m : Bytes) : HttpMethod :=
  match httpMethodMap.find? fun e => strncmp e.2.length e.2 m with
  | some e => e.1
  | none => .INVALID_METHOD

/-- `std::map<std::string, std::string, CaseInsensitiveLess>`, in its order. -/
abbrev MapType := List (Bytes × Bytes)

/-- `m[key] = val` -/
def MapType.set : MapType → Bytes → Bytes → MapType
  | [], key, val => [(key, val)]
  | e :: m, key, val =>
    match strcasecmp key e.1 with
    | .lt => (key, val) :: e :: m
    | .eq => (e.1, val) :: m
    | .gt => e :: MapType.set m key val

/-- `m.find(key)` -/
def MapType.get (m : MapType) (key : Bytes) : Option Bytes :=
  (m.find? fun e => strcasecmp e.1 key = .eq).map Prod.snd

structure HttpRequest where
  m_method : HttpMethod
  m_version : UInt8
  m_close : Bool
  m_path : Bytes
  m_query : Bytes
  m_fragment : Bytes
  m_body : Bytes
  m_headers : MapType
  deriving DecidableEq, Repr

namespace HttpRequest

/-- `HttpRequest(0x11, true)` -/
def new : HttpRequest where
  m_method := .GET
  m_version := 0x11
  m_close := true
  m_path := chars "/"
  m_query := []
  m_fragment := []
  m_body := []
  m_headers := []

def setBody (q : HttpRequest) (v : Bytes) : HttpRequest := { q with m_body := v }

def setHeader (q : HttpRequest) (key val : Bytes) : HttpRequest :=
  { q with m_headers := MapType.set q.m_headers key val }

def getHeader (q : HttpRequest) (key : Bytes) : Bytes := (MapType.get q.m_headers key).getD []

/-- `getHeaderAs<uint64_t>(key, 0)`; `lexical_cast` gives nothing where it throws. -/
def getHeaderAs (lexical_cast : Bytes → Option UInt64) (q : HttpRequest) (key : Bytes) : UInt64 :=
  ((MapType.get q.m_headers key).bind lexical_cast).getD 0

def init (q : HttpRequest) : HttpRequest :=
  let conn := q.getHeader (chars "connection")
  if conn = [] then q
  else { q with m_close := strcasecmp conn (chars "keep-alive") ≠ .eq }

/-- `init` sets `m_close` only. -/
theorem init_eq (q : HttpRequest) : ∃ close, q.init = { q with m_close := close } := by
  unfold init
  by_cases hconn : q.getHeader (chars "connection") = []
  · exact ⟨q.m_close, if_pos hconn⟩
  · exact ⟨_, if_neg hconn⟩

@[simp] theorem init_body (q : HttpRequest) : q.init.m_body = q.m_body := by
  obtain ⟨close, h⟩ := q.init_eq
  rw [h]

@[simp] theorem setBody_body (q : HttpRequest) (v : Bytes) : (q.setBody v).m_body = v := rfl

end HttpRequest

/-! ### What the search for the method depends on -/

/-- A name without a zero or `stop` in it is found in front of `stop` or not at all. -/
theorem strncmp_iff_begins {name token rest : Bytes} {stop : UInt8} (h0 : (0 : UInt8) ∉ name)
    (hstop : stop ∉ name) :
    strncmp name.length name (token ++ stop :: rest) = true ↔ name <+: token := by
  induction name generalizing token with
  | nil => simp [strncmp]
  | cons x name ih =>
    obtain ⟨hx0, h0⟩ := not_or.mp (mt List.mem_cons.mpr h0)
    obtain ⟨hx, hstop⟩ := not_or.mp (mt List.mem_cons.mpr hstop)
    cases token with
    | nil => simp [strncmp, Ne.symm hx]
    | cons y token =>
      have hx0' : (x == 0) = false := beq_eq_false_iff_ne.mpr (Ne.symm hx0)
      simp only [List.length_cons, strncmp, List.headD_cons, hx0', Bool.false_or, List.tail_cons,
        List.cons_append, Bool.and_eq_true, beq_iff_eq, List.cons_prefix_cons, ih h0 hstop]

/-- The names of the methods other than `M - SEARCH`: two letters and no blank. -/
theorem httpMethodMap_names : ∀ e ∈ httpMethodMap, e.1 ≠ .MSEARCH →
    (0 : UInt8) ∉ e.2 ∧ (32 : UInt8) ∉ e.2 ∧ 2 ≤ e.2.length := by
  decide +kernel

theorem httpMethodMap_msearch : ∀ e ∈ httpMethodMap, e.1 = .MSEARCH → e.2 = chars "M - SEARCH" := by
  decide +kernel

/-- `M - SEARCH` is not found where another method's name begins a token: that one has a letter
where it has its first blank. -/
theorem strncmp_msearch_of_prefix {name token rest : Bytes} (h32 : (32 : UInt8) ∉ name)
    (hlen : 2 ≤ name.length) (h : name <+: token) :
    strncmp (chars "M - SEARCH").length (chars "M - SEARCH") (token ++ rest) = false := by
  obtain ⟨token', rfl⟩ := h
  match name, hlen, h32 with
  | x :: y :: name, _, h32 =>
    have hy : (32 == y) = false :=
      beq_eq_false_iff_ne.mpr fun h => h32 (by simp [h])
    simp only [List.cons_append, List.append_assoc]
    show (77 == x && (77 == (0 : UInt8) || (32 == y && _))) = false
    simp [hy]

/-- **The method of a token.** Behind a blank, what follows matters to `M - SEARCH` only. -/
theorem charsToHttpMethod_congr {token rest z : Bytes} {m : HttpMethod}
    (h : charsToHttpMethod (token ++ 32 :: rest) = m) (hm : m ≠ .INVALID_METHOD)
    (hs : m ≠ .MSEARCH) : charsToHttpMethod (token ++ 32 :: z) = m := by
  have hother : ∀ e ∈ httpMethodMap, e.1 ≠ .MSEARCH → ∀ rest,
      (strncmp e.2.length e.2 (token ++ 32 :: rest) = true ↔ e.2 <+: token) := by
    intro e he hne rest
    obtain ⟨h0, h32, -⟩ := httpMethodMap_names e he hne
    exact strncmp_iff_begins h0 h32
  unfold charsToHttpMethod at h ⊢
  cases hf : httpMethodMap.find? fun e => strncmp e.2.length e.2 (token ++ 32 :: rest) with
  | none => rw [hf] at h; exact absurd h.symm hm
  | some e =>
    rw [hf] at h
    replace h : e.1 = m := h
    have he := List.mem_of_find?_eq_some hf
    have hne : e.1 ≠ .MSEARCH := by rw [h]; exact hs
    have hfound : strncmp e.2.length e.2 (token ++ 32 :: rest) = true := by
      simpa using List.find?_some hf
    have hpre := (hother e he hne rest).mp hfound
    obtain ⟨-, h32, hlen⟩ := httpMethodMap_names e he hne
    -- the found name begins the token, so the two searches agree on every entry of the table
    have hsame : ∀ e' ∈ httpMethodMap, strncmp e'.2.length e'.2 (token ++ 32 :: rest) =
        strncmp e'.2.length e'.2 (token ++ 32 :: z) := by
      intro e' he'
      by_cases hm' : e'.1 = .MSEARCH
      · have hname : e'.2 = chars "M - SEARCH" := httpMethodMap_msearch e' he' hm'
        rw [hname, strncmp_msearch_of_prefix h32 hlen hpre,
          strncmp_msearch_of_prefix h32 hlen hpre]
      · rw [Bool.eq_iff_iff, hother e' he' hm' rest, hother e' he' hm' z]
    rw [← List.find?_congr hsame, hf]
    exact h

end LimWebserver.Http
