import LimWebserver.Lib.Pieces
import LimWebserver.Net.Http.Dump

namespace LimWebserver.Http

open Lib.Pieces

/-!
# Http — parameters and cookies

`PARSE_PARAM` looks for the next `=` first, and for a separator only behind it, so that pieces
without an `=` become a part of the next key.

* `urlDecode`, `trim` — those of `StringUtil`;
* `MapType.insert`, `MapType.taken` — `m.insert` and whether it has any effect;
* `parseParam`, `initQueryParam`, `initBodyParam`, `initCookies` — the macro and its three uses;
* `reference` — every piece by itself;
* `parseParam_eq` — what the loop inserts, with a bound on its turns;
* `Apart`, `merged_eq_iff` — exactly when that makes no difference;
* `initParam_merged` — a flag in front of a parameter; `initParam_iff` — all strings.
-/

/-! ### `StringUtil` -/

def isxdigit (c : UInt8) : Bool := (48 ≤ c ∧ c ≤ 57) ∨ (65 ≤ c ∧ c ≤ 70) ∨ (97 ≤ c ∧ c ≤ 102)

/-- `xdigit_chars` -/
def xdigit (c : UInt8) : UInt8 :=
  if 48 ≤ c ∧ c ≤ 57 then c - 48
  else if 65 ≤ c ∧ c ≤ 70 then c - 55
  else if 97 ≤ c ∧ c ≤ 102 then c - 87
  else 0

/-- `UrlDecode`, with `space_as_plus`. -/
def urlDecode : Bytes → Bytes
  | 37 :: a :: b :: str =>
    if isxdigit a ∧ isxdigit b then (xdigit a <<< 4 ||| xdigit b) :: urlDecode str
    else 37 :: urlDecode (a :: b :: str)
  | c :: str => (if c = 43 then 32 else c) :: urlDecode str
  | [] => []

/-- A character of `" \t\r\n"`. -/
def isDelimit (c : UInt8) : Bool := c ∈ [32, 9, 13, 10]

/-- `Trim` -/
def trim (str : Bytes) : Bytes := ((str.dropWhile isDelimit).reverse.dropWhile isDelimit).reverse

example : urlDecode (chars "a+b%3d%4") = chars "a b=%4" := by decide

/-! ### Maps and searches -/

namespace MapType

/-- `m.insert(std::make_pair(key, val))` -/
def insert : MapType → Bytes → Bytes → MapType
  | [], key, val => [(key, val)]
  | e :: m, key, val =>
    match strcasecmp key e.1 with
    | .lt => (key, val) :: e :: m
    | .eq => e :: m
    | .gt => e :: insert m key val

/-- `m.count(key) != 0` -/
def taken : MapType → Bytes → Bool
  | [], _ => false
  | e :: m, key =>
    match strcasecmp key e.1 with
    | .lt => false
    | .eq => true
    | .gt => taken m key

variable {m : MapType} {key val : Bytes}

theorem insert_of_taken (h : m.taken key = true) : m.insert key val = m := by
  induction m with
  | nil => exact absurd h Bool.false_ne_true
  | cons e m ih =>
    rw [taken] at h
    rw [insert]
    split at h
    · exact absurd h Bool.false_ne_true
    · rfl
    · rw [ih h]

/-- An insertion adds its entry or nothing. -/
theorem countP_insert (p : Bytes × Bytes → Bool) : (m.insert key val).countP p =
    m.countP p + if m.taken key = false ∧ p (key, val) then 1 else 0 := by
  have hnew : ∀ m : MapType, ((key, val) :: m).countP p =
      m.countP p + if false = false ∧ p (key, val) then 1 else 0 := by
    intro m
    rw [List.countP_cons]
    simp
  induction m with
  | nil => exact hnew []
  | cons e m ih =>
    rw [insert, taken]
    split
    · exact hnew (e :: m)
    · simp
    · rw [List.countP_cons, ih, List.countP_cons]
      omega

end MapType

/-- `str.find(c, pos)`; none is `npos`. -/
def find (str : Bytes) (c : UInt8) (pos : Nat) : Option Nat :=
  ((str.drop pos).findIdx? (· = c)).map (pos + ·)

/-- `str.substr(pos, n)` -/
def substr (str : Bytes) (pos n : Nat) : Bytes := (str.drop pos).take n

/-- `strcasestr(a, b) != nullptr` -/
def strcasestr (a b : Bytes) : Bool := fold b <:+: fold a

/-! ### `PARSE_PARAM` -/

/-- The loop of the macro, with the map that it inserts into; none if it has not ended after so many
    turns. -/
def parseParam (str : Bytes) (flag : UInt8) (trim : Bytes → Bytes) :
    Nat → Nat → MapType → Option MapType
  | 0, _, _ => none
  | fuel + 1, last, m =>
    match find str 61 last with
    | none => some m
    | some key =>
      -- the key reaches from the last separator that has been found over all others up to the `=`
      match find str flag key with
      | none =>
        some (m.insert (trim (substr str last (key - last))) (urlDecode (str.drop (key + 1))))
      | some pos =>
        parseParam str flag trim fuel (pos + 1)
          (m.insert (trim (substr str last (key - last)))
            (urlDecode (substr str (key + 1) (pos - key - 1))))

namespace WholeRequest

variable (fuel : Nat) (q : WholeRequest)

def initQueryParam : Option WholeRequest :=
  if q.m_parserParamFlag &&& 0x1 ≠ 0 then some q
  else
    (parseParam q.m_query 38 id fuel 0 q.m_params).map fun m =>
      { q with m_params := m, m_parserParamFlag := q.m_parserParamFlag ||| 0x1 }

/-- The content type says that the body is a form. -/
def isForm : Bool :=
  strcasestr (q.getHeader (chars "content-type")) (chars "application/x-www-form-urlencoded")

def initBodyParam : Option WholeRequest :=
  if q.m_parserParamFlag &&& 0x2 ≠ 0 then some q
  else if q.isForm = false then
    some { q with m_parserParamFlag := q.m_parserParamFlag ||| 0x2 }
  else
    (parseParam q.m_body 38 id fuel 0 q.m_params).map fun m =>
      { q with m_params := m, m_parserParamFlag := q.m_parserParamFlag ||| 0x2 }

def initCookies : Option WholeRequest :=
  if q.m_parserParamFlag &&& 0x4 ≠ 0 then some q
  else
    let cookie := q.getHeader (chars "cookie")
    if cookie = [] then some { q with m_parserParamFlag := q.m_parserParamFlag ||| 0x4 }
    else
      (parseParam cookie 59 trim fuel 0 q.m_cookies).map fun m =>
        { q with m_cookies := m, m_parserParamFlag := q.m_parserParamFlag ||| 0x4 }

end WholeRequest

/-- **The reference.** The text is cut at every separator, and each piece with an `=` inserted. -/
def reference (str : Bytes) (flag : UInt8) (trim : Bytes → Bytes) (m : MapType) : MapType :=
  ((str.splitOn flag).filterMap (assignment 61)).foldl
    (fun m a => m.insert (trim a.1) (urlDecode a.2)) m

/-- What the loop makes of the runs of the text: the pieces without an `=` are a part of the key. -/
def merged (flag : UInt8) (trim : Bytes → Bytes) (m : MapType) (rs : List (Run UInt8)) : MapType :=
  rs.foldl (fun m r => m.insert (trim (r.joined flag)) (urlDecode r.value)) m

/-! ### The loop -/

section Loop

variable {str a b v rest : Bytes} {c flag : UInt8} {pos : Nat} {trim : Bytes → Bytes}

theorem find_eq_none (h : c ∉ str.drop pos) : find str c pos = none := by
  rw [find, Option.map_eq_none_iff, List.findIdx?_eq_none_iff]
  intro x hx
  simpa using fun heq : x = c => h (heq ▸ hx)

theorem find_eq_some (hdrop : str.drop pos = a ++ c :: b) (h : c ∉ a) :
    find str c pos = some (pos + a.length) := by
  have hindex : (a ++ c :: b).findIdx? (· = c) = some a.length := by
    rw [List.findIdx?_append, List.findIdx?_eq_none_iff.mpr]
    · simp [List.findIdx?_cons]
    · intro x hx
      simpa using fun heq : x = c => h (heq ▸ hx)
  rw [find, hdrop, hindex, Option.map_some]

/-- What is behind a symbol that has been found. -/
theorem drop_of_drop (hdrop : str.drop pos = a ++ c :: b) :
    str.drop (pos + a.length) = c :: b ∧ str.drop (pos + a.length + 1) = b := by
  constructor
  · rw [← List.drop_drop, hdrop, List.drop_left]
  · rw [Nat.add_assoc, ← List.drop_drop, hdrop, ← List.drop_drop, List.drop_left, List.drop_one,
      List.tail_cons]

theorem substr_of_drop (hdrop : str.drop pos = a ++ b) : substr str pos a.length = a := by
  rw [substr, hdrop, List.take_left]

/-- **The loop** ends after at most as many turns as there are bytes left, and one more. -/
theorem parseParam_eq (hflag : (61 : UInt8) ≠ flag) (fuel pos : Nat) (m : MapType)
    (hfuel : str.length - pos < fuel) : parseParam str flag trim fuel pos m =
      some (merged flag trim m (runs 61 [] ((str.drop pos).splitOn flag))) := by
  induction fuel generalizing pos m with
  | zero => exact absurd hfuel (Nat.not_lt_zero _)
  | succ fuel ih =>
    rw [parseParam]
    by_cases heq : (61 : UInt8) ∈ str.drop pos
    · obtain ⟨a, b, hdrop, ha⟩ := List.eq_append_cons_of_mem heq
      obtain ⟨hbehind, hb⟩ := drop_of_drop hdrop
      have htext := substr_of_drop hdrop
      have hkey : pos + a.length - pos = a.length := Nat.add_sub_cancel_left pos a.length
      rw [find_eq_some hdrop ha]
      by_cases hsep : flag ∈ b
      · -- the value ends at the next separator, and the loop goes on behind it
        obtain ⟨v, rest, rfl, hv⟩ := List.eq_append_cons_of_mem hsep
        obtain ⟨r, hjoined, hvalue, hruns⟩ := runs_first hflag ha hv []
        have hnext : find str flag (pos + a.length) = some (pos + a.length + (61 :: v).length) :=
          find_eq_some (b := rest) hbehind (mt List.mem_cons.mp (not_or.mpr ⟨Ne.symm hflag, hv⟩))
        have hrest : str.drop (pos + a.length + (61 :: v).length + 1) = rest :=
          (drop_of_drop (a := 61 :: v) hbehind).2
        have hval : pos + a.length + (61 :: v).length - (pos + a.length) - 1 = v.length := by
          rw [List.length_cons]
          omega
        have hsplit : (str.drop pos).splitOn flag =
            (a ++ 61 :: v).splitOn flag ++ rest.splitOn flag := by
          rw [hdrop, ← List.cons_append, ← List.append_assoc, List.splitOn_append_cons_self]
        have hlt := congrArg List.length hdrop
        simp only [List.length_drop, List.length_append, List.length_cons] at hlt
        simp only [hnext, hkey, htext, hval, substr_of_drop hb]
        rw [ih _ _ (by rw [List.length_cons]; omega), hrest, hsplit, hruns, merged, merged,
          List.foldl_cons, hjoined, hvalue]
        rfl
      · -- the value is the rest of the text
        obtain ⟨r, hjoined, hvalue, hruns⟩ := runs_first hflag ha hsep []
        have hnext : find str flag (pos + a.length) = none := by
          apply find_eq_none
          rw [hbehind]
          exact mt List.mem_cons.mp (not_or.mpr ⟨Ne.symm hflag, hsep⟩)
        have hone := hruns []
        rw [List.append_nil, ← hdrop] at hone
        simp only [hnext, hkey, htext, hb]
        rw [hone, merged, List.foldl_cons, hjoined, hvalue]
        rfl
    · rw [find_eq_none heq, runs_none heq]
      rfl

end Loop

/-! ### Exactly when the two maps are the same -/

/-- The map without the assignments that other pieces stand directly before. -/
def plain (trim : Bytes → Bytes) (m : MapType) (rs : List (Run UInt8)) : MapType :=
  (rs.filter fun r => r.before = []).foldl
    (fun m r => m.insert (trim r.key) (urlDecode r.value)) m

/-- The keys that other pieces have become a part of are all in the map already. -/
def Harmless (flag : UInt8) (trim : Bytes → Bytes) : MapType → List (Run UInt8) → Prop
  | _, [] => True
  | m, r :: rs =>
    if r.before = [] then Harmless flag trim (m.insert (trim r.key) (urlDecode r.value)) rs
    else m.taken (trim (r.joined flag)) = true ∧ Harmless flag trim m rs

/-- **The condition.** No assignment that other pieces stand directly before has an effect: not by
    its merged key, and not in the reference. -/
structure Apart (str : Bytes) (flag : UInt8) (trim : Bytes → Bytes) (m : MapType) : Prop where
  taken : Harmless flag trim m (runs 61 [] (str.splitOn flag))
  same : reference str flag trim m = plain trim m (runs 61 [] (str.splitOn flag))

section Apart

variable {str : Bytes} {flag : UInt8} {trim : Bytes → Bytes} {m : MapType} {rs : List (Run UInt8)}

theorem plain_cons_of_nil {r : Run UInt8} (h : r.before = []) : plain trim m (r :: rs) =
    plain trim (m.insert (trim r.key) (urlDecode r.value)) rs := by
  rw [plain, List.filter_cons_of_pos (by simp [h]), List.foldl_cons, plain]

theorem plain_cons_of_ne {r : Run UInt8} (h : r.before ≠ []) :
    plain trim m (r :: rs) = plain trim m rs := by
  rw [plain, List.filter_cons_of_neg (by simp [h]), plain]

/-- What the loop inserts by itself is what is left of the text. -/
theorem merged_of_harmless (h : Harmless flag trim m rs) :
    merged flag trim m rs = plain trim m rs := by
  induction rs generalizing m with
  | nil => rfl
  | cons r rs ih =>
    rw [Harmless] at h
    rw [merged, List.foldl_cons, ← merged]
    split_ifs at h with hbefore
    · rw [plain_cons_of_nil hbefore, joined_of_nil flag hbefore, ih h]
    · rw [plain_cons_of_ne hbefore, MapType.insert_of_taken h.1, ih h.2]

/-- The entries whose key has a separator in it. -/
def separated (flag : UInt8) (m : MapType) : Nat := m.countP fun e => decide (flag ∈ e.1)

theorem separated_insert (flag : UInt8) (m : MapType) (key val : Bytes) :
    separated flag (m.insert key val) =
      separated flag m + if m.taken key = false ∧ flag ∈ key then 1 else 0 := by
  rw [separated, MapType.countP_insert, separated]
  simp only [decide_eq_true_eq]

/-- **A merged key that is new stays in the map**, with a separator in it. -/
theorem separated_merged (hsep : ∀ x, flag ∈ trim x ↔ flag ∈ x) (hkeys : ∀ r ∈ rs, flag ∉ r.key) :
    separated flag m ≤ separated flag (merged flag trim m rs) ∧
      (separated flag (merged flag trim m rs) = separated flag m → Harmless flag trim m rs) := by
  induction rs generalizing m with
  | nil => exact ⟨Nat.le_refl _, fun _ => trivial⟩
  | cons r rs ih =>
    obtain ⟨hle, hharmless⟩ := @ih (m.insert (trim (r.joined flag)) (urlDecode r.value))
      fun r hr => hkeys r (List.mem_cons_of_mem _ hr)
    have hinsert := separated_insert flag m (trim (r.joined flag)) (urlDecode r.value)
    rw [merged, List.foldl_cons, ← merged, Harmless]
    by_cases hbefore : r.before = []
    · have hkey : flag ∉ trim (r.joined flag) := by
        rw [hsep, joined_of_nil flag hbefore]
        exact hkeys r List.mem_cons_self
      rw [if_neg fun h => hkey h.2, Nat.add_zero] at hinsert
      rw [if_pos hbefore, ← joined_of_nil flag hbefore, ← hinsert]
      exact ⟨hle, hharmless⟩
    · -- the merged key has a separator in it: new, it would be one entry more, and entries stay
      have hkey : flag ∈ trim (r.joined flag) := (hsep _).mpr (mem_joined hbefore)
      rw [if_neg hbefore]
      by_cases htaken : m.taken (trim (r.joined flag)) = true
      · rw [MapType.insert_of_taken htaken] at hle hharmless ⊢
        exact ⟨hle, fun h => ⟨htaken, hharmless h⟩⟩
      · rw [if_pos ⟨Bool.eq_false_of_not_eq_true htaken, hkey⟩] at hinsert
        exact ⟨by omega, fun h => by omega⟩

/-- No key of the reference has a separator in it. -/
theorem separated_reference (hsep : ∀ x, flag ∈ trim x ↔ flag ∈ x) :
    separated flag (reference str flag trim m) = separated flag m := by
  have hkeys : ∀ a ∈ (str.splitOn flag).filterMap (assignment 61), flag ∉ a.1 := by
    intro a ha
    rw [filterMap_assignment []] at ha
    obtain ⟨r, hr, rfl⟩ := List.mem_map.mp ha
    exact not_mem_key (fun p hp => not_mem_of_mem_splitOn hp) hr
  unfold reference
  generalize (str.splitOn flag).filterMap (assignment 61) = as at hkeys
  induction as generalizing m with
  | nil => rfl
  | cons a as ih =>
    have hkey : flag ∉ trim a.1 := (hsep _).not.mpr (hkeys a List.mem_cons_self)
    rw [List.foldl_cons, ih fun a ha => hkeys a (List.mem_cons_of_mem _ ha), separated_insert,
      if_neg fun h => hkey h.2, Nat.add_zero]

/-- **The loop makes the reference** exactly under the condition. -/
theorem merged_eq_iff (hsep : ∀ x, flag ∈ trim x ↔ flag ∈ x) :
    merged flag trim m (runs 61 [] (str.splitOn flag)) = reference str flag trim m ↔
      Apart str flag trim m := by
  constructor
  · intro h
    have hkeys : ∀ r ∈ runs 61 [] (str.splitOn flag), flag ∉ r.key := fun r hr =>
      not_mem_key (fun p hp => not_mem_of_mem_splitOn hp) hr
    have hharmless := (separated_merged (m := m) hsep hkeys).2 (by rw [h, separated_reference hsep])
    exact ⟨hharmless, by rw [← h, merged_of_harmless hharmless]⟩
  · intro h
    rw [merged_of_harmless h.taken, h.same]

/-- If every piece without an `=` stands at the end. -/
theorem apart_of_forall (h : ∀ r ∈ runs 61 [] (str.splitOn flag), r.before = []) :
    Apart str flag trim m := by
  have hplain : ∀ rs : List (Run UInt8), (∀ r ∈ rs, r.before = []) → ∀ m : MapType,
      Harmless flag trim m rs ∧ plain trim m rs =
        (rs.map fun r => (r.key, r.value)).foldl
          (fun m a => m.insert (trim a.1) (urlDecode a.2)) m := by
    intro rs
    induction rs with
    | nil => exact fun _ _ => ⟨trivial, rfl⟩
    | cons r rs ih =>
      intro hrs m
      have hr := hrs r List.mem_cons_self
      obtain ⟨hharmless, heq⟩ := ih (fun r hr => hrs r (List.mem_cons_of_mem _ hr))
        (m.insert (trim r.key) (urlDecode r.value))
      refine ⟨?_, ?_⟩
      · rw [Harmless, if_pos hr]
        exact hharmless
      · rw [plain_cons_of_nil hr, heq]
        rfl
  obtain ⟨hharmless, heq⟩ := hplain _ h m
  refine ⟨hharmless, ?_⟩
  rw [heq, reference, filterMap_assignment []]

end Apart

/-! ### The three uses of the macro -/

theorem mem_dropWhile {p : UInt8 → Bool} {c : UInt8} {str : Bytes} (hc : p c = false) :
    c ∈ str.dropWhile p ↔ c ∈ str := by
  constructor
  · exact fun h => (List.dropWhile_sublist p).subset h
  · intro h
    rw [← List.takeWhile_append_dropWhile (p := p) (l := str)] at h
    rcases List.mem_append.mp h with h | h
    · exact absurd (List.mem_takeWhile_imp h) (by rw [hc]; exact Bool.false_ne_true)
    · exact h

/-- What is trimmed off is no separator. -/
theorem mem_trim (str : Bytes) : 59 ∈ trim str ↔ 59 ∈ str := by
  rw [trim, List.mem_reverse, mem_dropWhile (by decide), List.mem_reverse,
    mem_dropWhile (by decide)]

section Uses

variable {q : WholeRequest} {fuel : Nat}

theorem initQueryParam_iff (hflag : q.m_parserParamFlag &&& 0x1 = 0)
    (hfuel : q.m_query.length < fuel) : ∃ m, q.initQueryParam fuel =
        some { q with m_params := m, m_parserParamFlag := q.m_parserParamFlag ||| 0x1 } ∧
      (m = reference q.m_query 38 id q.m_params ↔ Apart q.m_query 38 id q.m_params) := by
  refine ⟨_, ?_, merged_eq_iff fun _ => Iff.rfl⟩
  rw [WholeRequest.initQueryParam, if_neg (not_not.mpr hflag),
    parseParam_eq (by decide) fuel 0 _ (by rw [Nat.sub_zero]; exact hfuel)]
  rfl

theorem initBodyParam_iff (hflag : q.m_parserParamFlag &&& 0x2 = 0) (hform : q.isForm = true)
    (hfuel : q.m_body.length < fuel) : ∃ m, q.initBodyParam fuel =
        some { q with m_params := m, m_parserParamFlag := q.m_parserParamFlag ||| 0x2 } ∧
      (m = reference q.m_body 38 id q.m_params ↔ Apart q.m_body 38 id q.m_params) := by
  refine ⟨_, ?_, merged_eq_iff fun _ => Iff.rfl⟩
  rw [WholeRequest.initBodyParam, if_neg (not_not.mpr hflag),
    if_neg (by rw [hform]; exact Bool.noConfusion),
    parseParam_eq (by decide) fuel 0 _ (by rw [Nat.sub_zero]; exact hfuel)]
  rfl

theorem initCookies_iff (hflag : q.m_parserParamFlag &&& 0x4 = 0)
    (hfuel : (q.getHeader (chars "cookie")).length < fuel) : ∃ m, q.initCookies fuel =
        some { q with m_cookies := m, m_parserParamFlag := q.m_parserParamFlag ||| 0x4 } ∧
      (m = reference (q.getHeader (chars "cookie")) 59 trim q.m_cookies ↔
        Apart (q.getHeader (chars "cookie")) 59 trim q.m_cookies) := by
  refine ⟨_, ?_, merged_eq_iff mem_trim⟩
  rw [WholeRequest.initCookies, if_neg (not_not.mpr hflag)]
  by_cases hempty : q.getHeader (chars "cookie") = []
  · -- there is nothing to insert
    rw [if_pos hempty, hempty]
    rfl
  · rw [if_neg hempty, parseParam_eq (by decide) fuel 0 _ (by rw [Nat.sub_zero]; exact hfuel)]
    rfl

end Uses

/-- **A flag in front of a parameter** becomes a part of its key. -/
theorem initParam_merged :
    (¬ ∀ (q : WholeRequest) (fuel : Nat), q.m_parserParamFlag &&& 0x1 = 0 →
      q.m_query.length < fuel → ∃ q', q.initQueryParam fuel = some q' ∧
        q'.m_params = reference q.m_query 38 id q.m_params) ∧
    ¬ ∀ (q : WholeRequest) (fuel : Nat), q.m_parserParamFlag &&& 0x4 = 0 →
      (q.getHeader (chars "cookie")).length < fuel → ∃ q', q.initCookies fuel = some q' ∧
        q'.m_cookies = reference (q.getHeader (chars "cookie")) 59 trim q.m_cookies := by
  constructor
  · intro h
    obtain ⟨q', hcall, hparams⟩ := h (received { HttpRequest.new with m_query := chars "flag&a=1" })
      9 (by decide) (by decide)
    have hmerged : WholeRequest.initQueryParam 9
        (received { HttpRequest.new with m_query := chars "flag&a=1" }) =
          some { received { HttpRequest.new with m_query := chars "flag&a=1" } with
            m_params := [(chars "flag&a", chars "1")], m_parserParamFlag := 1 } := by
      decide +kernel
    rw [hmerged] at hcall
    rw [← Option.some.inj hcall] at hparams
    exact absurd hparams (by decide +kernel)
  · intro h
    obtain ⟨q', hcall, hcookies⟩ := h
      (received (HttpRequest.new.setHeader (chars "cookie") (chars "flag; a=1"))) 10 (by decide)
      (by decide)
    have hmerged : WholeRequest.initCookies 10
        (received (HttpRequest.new.setHeader (chars "cookie") (chars "flag; a=1"))) =
          some { received (HttpRequest.new.setHeader (chars "cookie") (chars "flag; a=1")) with
            m_cookies := [(chars "flag; a", chars "1")], m_parserParamFlag := 4 } := by
      decide +kernel
    rw [hmerged] at hcall
    rw [← Option.some.inj hcall] at hcookies
    exact absurd hcookies (by decide +kernel)

/-- **The parameters and the cookies** of any text: each of the three ends, and has made the
    reference exactly if no assignment behind pieces without an `=` makes a difference. -/
theorem initParam_iff (q : WholeRequest) (fuel : Nat) :
    (q.m_parserParamFlag &&& 0x1 = 0 → q.m_query.length < fuel →
      ∃ m, q.initQueryParam fuel =
          some { q with m_params := m, m_parserParamFlag := q.m_parserParamFlag ||| 0x1 } ∧
        (m = reference q.m_query 38 id q.m_params ↔ Apart q.m_query 38 id q.m_params)) ∧
    (q.m_parserParamFlag &&& 0x2 = 0 → q.isForm = true → q.m_body.length < fuel →
      ∃ m, q.initBodyParam fuel =
          some { q with m_params := m, m_parserParamFlag := q.m_parserParamFlag ||| 0x2 } ∧
        (m = reference q.m_body 38 id q.m_params ↔ Apart q.m_body 38 id q.m_params)) ∧
    (q.m_parserParamFlag &&& 0x4 = 0 → (q.getHeader (chars "cookie")).length < fuel →
      ∃ m, q.initCookies fuel =
          some { q with m_cookies := m, m_parserParamFlag := q.m_parserParamFlag ||| 0x4 } ∧
        (m = reference (q.getHeader (chars "cookie")) 59 trim q.m_cookies ↔
          Apart (q.getHeader (chars "cookie")) 59 trim q.m_cookies)) := by
  refine ⟨fun hflag hfuel => ?_, fun hflag hform hfuel => ?_, fun hflag hfuel => ?_⟩
  · exact initQueryParam_iff hflag hfuel
  · exact initBodyParam_iff hflag hform hfuel
  · exact initCookies_iff hflag hfuel

/-- A form with two parameters and a flag behind them, one more in the body, and a cookie. -/
def sample : WholeRequest := received { HttpRequest.new with
  m_query := chars "a=1&b=2&flag"
  m_body := chars "c=3&"
  m_headers := [(chars "Content-Type", chars "application/x-www-form-urlencoded; charset=utf-8"),
    (chars "Cookie", chars " id = 7")] }

theorem initParam_iff_sample :
    (∃ m, sample.initQueryParam 13 =
        some { sample with m_params := m, m_parserParamFlag := 1 } ∧
      m = reference (chars "a=1&b=2&flag") 38 id []) ∧
    (∃ m, sample.initBodyParam 13 =
        some { sample with m_params := m, m_parserParamFlag := 2 } ∧
      m = reference (chars "c=3&") 38 id []) ∧
    ∃ m, sample.initCookies 13 =
        some { sample with m_cookies := m, m_parserParamFlag := 4 } ∧
      m = reference (chars " id = 7") 59 trim [] := by
  obtain ⟨hquery, hbody, hcookies⟩ := initParam_iff sample 13
  refine ⟨?_, ?_, ?_⟩
  · obtain ⟨m, hcall, hm⟩ := hquery (by decide) (by decide)
    exact ⟨m, hcall, hm.mpr (apart_of_forall (by decide +kernel))⟩
  · obtain ⟨m, hcall, hm⟩ := hbody (by decide) (by decide +kernel) (by decide)
    exact ⟨m, hcall, hm.mpr (apart_of_forall (by decide +kernel))⟩
  · obtain ⟨m, hcall, hm⟩ := hcookies (by decide) (by decide)
    exact ⟨m, hcall, hm.mpr (apart_of_forall (by decide +kernel))⟩

end LimWebserver.Http
