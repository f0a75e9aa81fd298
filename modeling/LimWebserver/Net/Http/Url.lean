import LimWebserver.Net.Http.Params

namespace LimWebserver.Http

/-!
# Http — `UrlEncode` and `UrlDecode`

The two loops of `StringUtil` walk over the bytes with a pointer and create the output at the first
byte that is not copied.

* `uri_chars`, `xdigit_chars` — the tables; `unreserved_iff`, `xdigit_eq` — what is in them;
* `StringUtil.urlEncode`, `StringUtil.urlDecode` — the loops, where a read beyond the end of the
  string or of a table is `none`;
* `code`, `decoded` — one encoded byte, and a decoded text without the pointer;
* `Decodes` — what `UrlDecode` is to do;
* `urlDecode_urlEncode` — the round trip, and no read beyond the end.
-/

/-- `uri_chars` -/
def uri_chars : List UInt8 :=
  [0, 0, 0, 0, 0, 0, 0, 0, 0, 0, 0, 0, 0, 0, 0, 0, 0, 0, 0, 0, 0, 0, 0, 0, 0, 0, 0, 0, 0, 0, 0, 0,
    0, 0, 0, 0, 0, 0, 0, 0, 0, 0, 0, 0, 0, 1, 1, 0, 1, 1, 1, 1, 1, 1, 1, 1, 1, 1, 0, 0, 0, 1, 0, 0,
    0, 1, 1, 1, 1, 1, 1, 1, 1, 1, 1, 1, 1, 1, 1, 1, 1, 1, 1, 1, 1, 1, 1, 1, 1, 1, 1, 0, 0, 0, 0, 1,
    0, 1, 1, 1, 1, 1, 1, 1, 1, 1, 1, 1, 1, 1, 1, 1, 1, 1, 1, 1, 1, 1, 1, 1, 1, 1, 1, 0, 0, 0, 1, 0]
    -- 128 to 255
    ++ List.replicate 128 0

/-- `xdigit_chars` -/
def xdigit_chars : List UInt8 :=
  [0, 0, 0, 0, 0, 0, 0, 0, 0, 0, 0, 0, 0, 0, 0, 0, 0, 0, 0, 0, 0, 0, 0, 0, 0, 0, 0, 0, 0, 0, 0, 0,
    0, 0, 0, 0, 0, 0, 0, 0, 0, 0, 0, 0, 0, 0, 0, 0, 0, 1, 2, 3, 4, 5, 6, 7, 8, 9, 0, 0, 0, 0, 0, 0,
    0, 10, 11, 12, 13, 14, 15, 0, 0, 0, 0, 0, 0, 0, 0, 0,
    0, 0, 0, 0, 0, 0, 0, 0, 0, 0, 0, 0, 0, 0, 0, 0,
    0, 10, 11, 12, 13, 14, 15, 0, 0, 0, 0, 0, 0, 0, 0, 0,
    0, 0, 0, 0, 0, 0, 0, 0, 0, 0, 0, 0, 0, 0, 0, 0]
    -- 128 to 255
    ++ List.replicate 128 0

/-- `CHAR_IS_UNRESERVED` -/
def unreserved (c : UInt8) : Bool := uri_chars.getD c.toNat 0 ≠ 0

/-- `hexdigits[i]`, of `"0123456789ABCDEF"`. -/
def hexdigit (i : UInt8) : UInt8 :=
  [48, 49, 50, 51, 52, 53, 54, 55, 56, 57, 65, 66, 67, 68, 69, 70].getD i.toNat 0

/-- `xdigit_chars[(int)c]`; a `char` from 0x80 on is negative. -/
def xdigitAt (c : UInt8) : Option UInt8 := if c < 128 then xdigit_chars[c.toNat]? else none

namespace StringUtil

variable (str : Bytes) (space_as_plus : Bool)

/-- The loop of `UrlEncode` from `c` on; `ss` is null as long as every byte is copied. -/
def urlEncodeLoop (c : Nat) (ss : Option Bytes) : Option Bytes :=
  if h : c < str.length then
    let x := str[c]
    if unreserved x = false then
      let out := ss.getD (str.take c)
      if x = 32 ∧ space_as_plus then urlEncodeLoop (c + 1) (some (out ++ [43]))
      else urlEncodeLoop (c + 1) (some (out ++ [37, hexdigit (x >>> 4), hexdigit (x &&& 0xf)]))
    else urlEncodeLoop (c + 1) (ss.map (· ++ [x]))
  else ss
termination_by str.length - c

def urlEncode : Bytes := (urlEncodeLoop str space_as_plus 0 none).getD str

/-- `*c == '%' && (c + 2) < end && isxdigit(*(c + 1)) && isxdigit(*(c + 2))` -/
def escaped (c : Nat) : Option Bool :=
  str[c]?.bind fun x =>
    if x ≠ 37 then some false
    else if ¬ c + 2 < str.length then some false
    else
      str[c + 1]?.bind fun a =>
        if isxdigit a = false then some false else str[c + 2]?.map isxdigit

/-- `xdigit_chars[(int)*(c + 1)] << 4 | xdigit_chars[(int)*(c + 2)]` -/
def unescape (c : Nat) : Option UInt8 :=
  (str[c + 1]?.bind xdigitAt).bind fun hi =>
    (str[c + 2]?.bind xdigitAt).map fun lo => hi <<< 4 ||| lo

/-- The loop of `UrlDecode` from `c` on. -/
def urlDecodeLoop (c : Nat) (ss : Option Bytes) : Option (Option Bytes) :=
  if c < str.length then
    str[c]?.bind fun x =>
      if x = 43 ∧ space_as_plus then
        urlDecodeLoop (c + 1) (some (ss.getD (str.take c) ++ [32]))
      else
        (escaped str c).bind fun
          | true =>
            (unescape str c).bind fun b =>
              urlDecodeLoop (c + 3) (some (ss.getD (str.take c) ++ [b]))
          | false => urlDecodeLoop (c + 1) (ss.map (· ++ [x]))
  else some ss
termination_by str.length - c

def urlDecode : Option Bytes := (urlDecodeLoop str space_as_plus 0 none).map (·.getD str)

end StringUtil

/-! ### The texts -/

/-- One byte, encoded. -/
def code (space_as_plus : Bool) (x : UInt8) : Bytes :=
  if unreserved x then [x]
  else if x = 32 ∧ space_as_plus then [43]
  else [37, hexdigit (x >>> 4), hexdigit (x &&& 0xf)]

/-- `urlDecode` with either flag. -/
def decoded (space_as_plus : Bool) : Bytes → Bytes
  | 37 :: a :: b :: str =>
    if isxdigit a ∧ isxdigit b then
      (xdigit a <<< 4 ||| xdigit b) :: decoded space_as_plus str
    else 37 :: decoded space_as_plus (a :: b :: str)
  | c :: str => (if c = 43 ∧ space_as_plus then 32 else c) :: decoded space_as_plus str
  | [] => []

/-- The text begins with `%` and two hexadecimal digits. -/
def Escape (str : Bytes) : Prop :=
  ∃ a b rest, str = 37 :: a :: b :: rest ∧ isxdigit a = true ∧ isxdigit b = true

/-- **What `UrlDecode` is to do**: escapes are the bytes that they stand for, and with
    `space_as_plus` a plus is a blank; everything else is literal. -/
inductive Decodes (space_as_plus : Bool) : Bytes → Bytes → Prop
  | nil : Decodes space_as_plus [] []
  | escape {a b : UInt8} {str out : Bytes} (ha : isxdigit a = true) (hb : isxdigit b = true)
      (h : Decodes space_as_plus str out) :
      Decodes space_as_plus (37 :: a :: b :: str) ((xdigit a * 16 + xdigit b) :: out)
  | plus {str out : Bytes} (hplus : space_as_plus = true) (h : Decodes space_as_plus str out) :
      Decodes space_as_plus (43 :: str) (32 :: out)
  | literal {x : UInt8} {str out : Bytes} (hescape : ¬ Escape (x :: str))
      (hplus : ¬ (x = 43 ∧ space_as_plus = true)) (h : Decodes space_as_plus str out) :
      Decodes space_as_plus (x :: str) (x :: out)

/-! ### The tables -/

/-- A statement about every byte, checked one by one. -/
theorem forall_byte {P : UInt8 → Prop} (h : ∀ n < 256, P (UInt8.ofNat n)) (x : UInt8) : P x := by
  have hx := h x.toNat x.toNat_lt
  rwa [UInt8.ofNat_toNat] at hx

/-- Letters, digits and `-._~`, and the equals sign. -/
theorem unreserved_iff (x : UInt8) : unreserved x = true ↔
    (65 ≤ x ∧ x ≤ 90) ∨ (97 ≤ x ∧ x ≤ 122) ∨ (48 ≤ x ∧ x ≤ 57) ∨
      x = 45 ∨ x = 46 ∨ x = 95 ∨ x = 126 ∨ x = 61 := by
  revert x
  exact forall_byte (by decide +kernel)

/-- A digit is read at its place in the table. -/
theorem xdigitAt_eq (x : UInt8) (h : isxdigit x = true) : xdigitAt x = some (xdigit x) := by
  revert x
  exact forall_byte (by decide +kernel)

/-- The two digits do not overlap. -/
theorem shift_or {a b : UInt8} (ha : isxdigit a = true) (hb : isxdigit b = true) :
    xdigit a <<< 4 ||| xdigit b = xdigit a * 16 + xdigit b := by
  have hlt : ∀ x, isxdigit x = true → xdigit x < 16 := forall_byte (by decide +kernel)
  have hor : ∀ x y : UInt8, x < 16 → y < 16 → x <<< 4 ||| y = x * 16 + y := by
    have hsmall : ∀ m < 16, ∀ n < 16, UInt8.ofNat m <<< 4 ||| UInt8.ofNat n =
        UInt8.ofNat m * 16 + UInt8.ofNat n := by decide +kernel
    intro x y hx hy
    have hxy := hsmall x.toNat hx y.toNat hy
    rwa [UInt8.ofNat_toNat, UInt8.ofNat_toNat] at hxy
  exact hor _ _ (hlt a ha) (hlt b hb)

/-- The two digits of a byte. -/
theorem hexdigit_spec (x : UInt8) :
    isxdigit (hexdigit (x >>> 4)) = true ∧ isxdigit (hexdigit (x &&& 0xf)) = true ∧
      xdigit (hexdigit (x >>> 4)) <<< 4 ||| xdigit (hexdigit (x &&& 0xf)) = x := by
  revert x
  exact forall_byte (by decide +kernel)

/-! ### Encoding -/

section Encode

variable {str : Bytes} {space_as_plus : Bool} {c : Nat} {ss : Option Bytes} {x : UInt8}

theorem code_of_unreserved (h : unreserved x = true) : code space_as_plus x = [x] := if_pos h

/-- The output so far, and the byte that is copied into it. -/
theorem getD_copy (h : c < str.length) (ss : Option Bytes) :
    (ss.map (· ++ [str[c]])).getD (str.take (c + 1)) = ss.getD (str.take c) ++ [str[c]] := by
  cases ss with
  | none => exact List.take_succ_eq_append_getElem h
  | some out => rfl

/-- **The loop of `UrlEncode`** goes on behind the output so far with the codes of the bytes that
    are left. -/
theorem urlEncodeLoop_eq (hc : c ≤ str.length) :
    (StringUtil.urlEncodeLoop str space_as_plus c ss).getD str =
      ss.getD (str.take c) ++ (str.drop c).flatMap (code space_as_plus) := by
  induction hn : str.length - c generalizing c ss with
  | zero =>
    obtain rfl : c = str.length := by omega
    rw [StringUtil.urlEncodeLoop, dif_neg (Nat.lt_irrefl _), List.take_length, List.drop_length,
      List.flatMap_nil, List.append_nil]
  | succ n ih =>
    have hlt : c < str.length := by omega
    rw [StringUtil.urlEncodeLoop, dif_pos hlt, List.drop_eq_getElem_cons hlt, List.flatMap_cons,
      code]
    dsimp only
    by_cases hx : unreserved str[c] = true
    · rw [if_neg (by rw [hx]; exact Bool.noConfusion), if_pos hx, ih hlt (by omega),
        getD_copy hlt, List.append_assoc]
    · rw [if_pos (Bool.eq_false_of_not_eq_true hx), if_neg hx]
      split_ifs
      · rw [ih hlt (by omega), Option.getD_some, List.append_assoc]
      · rw [ih hlt (by omega), Option.getD_some, List.append_assoc]

/-- **`UrlEncode`** encodes byte by byte. -/
theorem urlEncode_eq (str : Bytes) (space_as_plus : Bool) :
    StringUtil.urlEncode str space_as_plus = str.flatMap (code space_as_plus) := by
  rw [StringUtil.urlEncode, urlEncodeLoop_eq (Nat.zero_le _)]
  rfl

end Encode

/-! ### Decoding -/

section Decode

variable {str rest : Bytes} {space_as_plus : Bool} {c : Nat} {ss : Option Bytes} {a b x : UInt8}

theorem decoded_escape (ha : isxdigit a = true) (hb : isxdigit b = true) :
    decoded space_as_plus (37 :: a :: b :: rest) =
      (xdigit a <<< 4 ||| xdigit b) :: decoded space_as_plus rest := by
  rw [decoded, if_pos ⟨ha, hb⟩]

/-- A byte that begins no escape stands for itself, or for a blank. -/
theorem decoded_cons (h : ¬ Escape (x :: str)) : decoded space_as_plus (x :: str) =
    (if x = 43 ∧ space_as_plus then 32 else x) :: decoded space_as_plus str := by
  by_cases hx : x = 37
  · subst hx
    rw [if_neg fun h => absurd h.1 (by decide)]
    match str with
    | [] => rfl
    | [_] => rfl
    | a :: b :: str =>
      rw [decoded, if_neg fun ⟨ha, hb⟩ => h ⟨a, b, str, rfl, ha, hb⟩]
  · exact decoded.eq_2 space_as_plus x str fun a b str' heq _ => hx heq

theorem decoded_true (str : Bytes) : decoded true str = urlDecode str := by
  fun_induction urlDecode str with
  | case1 a b str hdigits ih => rw [decoded, if_pos hdigits, ih]
  | case2 a b str hdigits ih => rw [decoded, if_neg hdigits, ih]
  | case3 c str hpercent ih =>
    rw [decoded.eq_2 true c str hpercent, ih]
    simp only [and_true]
  | case4 => rfl

/-- Every decoded text is what `UrlDecode` is to make. -/
theorem decodes_decoded (space_as_plus : Bool) (str : Bytes) :
    Decodes space_as_plus str (decoded space_as_plus str) := by
  induction hn : str.length using Nat.strongRecOn generalizing str with
  | _ n ih =>
    cases str with
    | nil => exact .nil
    | cons x str =>
      by_cases hescape : Escape (x :: str)
      · obtain ⟨a, b, rest, heq, ha, hb⟩ := hescape
        obtain ⟨rfl, rfl⟩ := List.cons.inj heq
        rw [decoded_escape ha hb, shift_or ha hb]
        exact .escape ha hb (ih rest.length (by simp [← hn]; omega) rest rfl)
      · rw [decoded_cons hescape]
        replace ih := ih str.length (by simp [← hn]) str rfl
        split_ifs with hplus
        · obtain ⟨rfl, hplus⟩ := hplus
          exact .plus hplus ih
        · exact .literal hescape hplus ih

/-- What stands at the pointer and behind it. -/
theorem getElem?_of_drop (hdrop : str.drop c = rest) (i : Nat) : str[c + i]? = rest[i]? := by
  rw [← hdrop, List.getElem?_drop]

/-- **The test for an escape** reads the two bytes behind a `%` only if they are in the string. -/
theorem escaped_eq (hc : c < str.length) :
    ∃ e, StringUtil.escaped str c = some e ∧ (e = true ↔ Escape (str.drop c)) := by
  have hlength : str.length = c + (str.drop c).length := by
    rw [List.length_drop]
    omega
  obtain ⟨x, rest, hdrop⟩ :=
    List.exists_cons_of_ne_nil (List.drop_eq_nil_iff.not.mpr (not_le.mpr hc))
  have hread := getElem?_of_drop hdrop
  have hx : str[c]? = some x := hread 0
  rw [hdrop] at hlength ⊢
  rw [StringUtil.escaped, hx, Option.bind_some]
  by_cases hpercent : x = 37
  · subst hpercent
    rw [if_neg (not_not.mpr rfl)]
    match rest with
    | [] =>
      rw [if_pos (by rw [hlength]; simp)]
      exact ⟨false, rfl, iff_of_false Bool.false_ne_true fun ⟨_, _, _, h, _⟩ => nomatch h⟩
    | [_] =>
      rw [if_pos (by rw [hlength]; simp)]
      exact ⟨false, rfl, iff_of_false Bool.false_ne_true fun ⟨_, _, _, h, _⟩ => nomatch h⟩
    | a :: b :: rest =>
      have ha : str[c + 1]? = some a := hread 1
      have hb : str[c + 2]? = some b := hread 2
      rw [if_neg (by rw [hlength]; simp), ha, Option.bind_some, hb, Option.map_some]
      by_cases hdigit : isxdigit a = true
      · rw [if_neg (by rw [hdigit]; exact Bool.noConfusion)]
        refine ⟨isxdigit b, rfl, fun h => ⟨a, b, rest, rfl, hdigit, h⟩, ?_⟩
        rintro ⟨a', b', rest', heq, -, hb'⟩
        obtain ⟨-, heq⟩ := List.cons.inj heq
        obtain ⟨-, heq⟩ := List.cons.inj heq
        rwa [(List.cons.inj heq).1]
      · rw [if_pos (Bool.eq_false_of_not_eq_true hdigit)]
        refine ⟨false, rfl, iff_of_false Bool.false_ne_true ?_⟩
        rintro ⟨a', b', rest', heq, ha', -⟩
        obtain ⟨-, heq⟩ := List.cons.inj heq
        exact hdigit ((List.cons.inj heq).1 ▸ ha')
  · rw [if_pos hpercent]
    refine ⟨false, rfl, iff_of_false Bool.false_ne_true ?_⟩
    rintro ⟨a, b, rest', heq, -⟩
    exact hpercent (List.cons.inj heq).1

/-- The byte of an escape. -/
theorem unescape_eq (hdrop : str.drop c = 37 :: a :: b :: rest) (ha : isxdigit a = true)
    (hb : isxdigit b = true) :
    StringUtil.unescape str c = some (xdigit a <<< 4 ||| xdigit b) := by
  have hread := getElem?_of_drop hdrop
  have hhi : str[c + 1]? = some a := hread 1
  have hlo : str[c + 2]? = some b := hread 2
  rw [StringUtil.unescape, hhi, hlo, Option.bind_some, Option.bind_some, xdigitAt_eq a ha,
    xdigitAt_eq b hb]
  rfl

/-- **The loop of `UrlDecode`** makes no read beyond the end, and goes on behind the output so far
    with what is left, decoded. -/
theorem urlDecodeLoop_eq (hc : c ≤ str.length) :
    ∃ r, StringUtil.urlDecodeLoop str space_as_plus c ss = some r ∧
      r.getD str = ss.getD (str.take c) ++ decoded space_as_plus (str.drop c) := by
  induction hn : str.length - c using Nat.strongRecOn generalizing c ss with
  | _ n ih =>
    rw [StringUtil.urlDecodeLoop]
    by_cases hlt : c < str.length
    · obtain ⟨e, he, hescape⟩ := escaped_eq hlt
      rw [if_pos hlt, List.getElem?_eq_getElem hlt, Option.bind_some]
      have hcons : str.drop c = str[c] :: str.drop (c + 1) := List.drop_eq_getElem_cons hlt
      by_cases hplus : str[c] = 43 ∧ space_as_plus
      · have hliteral : ¬ Escape (str[c] :: str.drop (c + 1)) := by
          rintro ⟨a, b, rest, heq, -⟩
          rw [hplus.1] at heq
          exact absurd (List.cons.inj heq).1 (by decide)
        obtain ⟨r, hr, hout⟩ := @ih _ (by omega) (c + 1)
          (some (ss.getD (str.take c) ++ [32])) hlt rfl
        refine ⟨r, by rw [if_pos hplus, hr], ?_⟩
        rw [hout, hcons, decoded_cons hliteral, if_pos hplus, Option.getD_some, List.append_assoc]
        rfl
      · rw [if_neg hplus, he, Option.bind_some]
        cases e with
        | true =>
          obtain ⟨a, b, rest, hdrop, ha, hb⟩ := hescape.mp rfl
          have hlength := congrArg List.length hdrop
          simp only [List.length_drop, List.length_cons] at hlength
          have hrest : str.drop (c + 3) = rest := by rw [← List.drop_drop, hdrop]; rfl
          obtain ⟨r, hr, hout⟩ := @ih _ (by omega) (c + 3)
            (some (ss.getD (str.take c) ++ [xdigit a <<< 4 ||| xdigit b])) (by omega) rfl
          refine ⟨r, ?_, ?_⟩
          · rw [unescape_eq hdrop ha hb]
            exact hr
          · rw [hout, hdrop, decoded_escape ha hb, hrest, Option.getD_some, List.append_assoc]
            rfl
        | false =>
          have hliteral : ¬ Escape (str[c] :: str.drop (c + 1)) := by
            rw [← hcons, ← hescape]
            exact Bool.false_ne_true
          obtain ⟨r, hr, hout⟩ := @ih _ (by omega) (c + 1) (ss.map (· ++ [str[c]])) hlt rfl
          refine ⟨r, hr, ?_⟩
          rw [hout, hcons, decoded_cons hliteral, if_neg hplus, getD_copy hlt, List.append_assoc]
          rfl
    · obtain rfl : c = str.length := by omega
      refine ⟨ss, if_neg hlt, ?_⟩
      rw [List.take_length, List.drop_length, decoded, List.append_nil]

/-- **`UrlDecode`** never reads beyond the end. -/
theorem urlDecode_eq (str : Bytes) (space_as_plus : Bool) :
    StringUtil.urlDecode str space_as_plus = some (decoded space_as_plus str) := by
  have hstart : 0 ≤ str.length := Nat.zero_le _
  obtain ⟨r, hr, hout⟩ :
      ∃ r, StringUtil.urlDecodeLoop str space_as_plus 0 none = some r ∧
        r.getD str = (none : Option Bytes).getD (str.take 0) ++
          decoded space_as_plus (str.drop 0) := urlDecodeLoop_eq hstart
  rw [StringUtil.urlDecode, hr, Option.map_some, hout]
  rfl

/-! ### The round trip -/

/-- An encoded byte in front of a text, read with the flag that it was written with or, without a
    plus for a blank, with any. -/
theorem decoded_code {plus space_as_plus : Bool} (hplus : plus = true → space_as_plus = true)
    (x : UInt8) (rest : Bytes) :
    decoded space_as_plus (code plus x ++ rest) = x :: decoded space_as_plus rest := by
  have hno : ∀ y, y ≠ 37 → ¬ Escape (y :: rest) := by
    rintro y hy ⟨a, b, rest', heq, -⟩
    exact hy (List.cons.inj heq).1
  rw [code]
  split_ifs with hx hblank
  · have hne : x ≠ 37 ∧ x ≠ 43 := by
      constructor <;> rintro rfl <;> exact absurd hx (by decide)
    rw [List.singleton_append, decoded_cons (hno x hne.1), if_neg fun h => hne.2 h.1]
  · obtain ⟨rfl, hplus'⟩ := hblank
    rw [List.singleton_append, decoded_cons (hno 43 (by decide)), if_pos ⟨rfl, hplus hplus'⟩]
  · obtain ⟨hhi, hlo, hbyte⟩ := hexdigit_spec x
    rw [List.cons_append, List.cons_append, List.singleton_append, decoded_escape hhi hlo, hbyte]

theorem decoded_flatMap_code {plus space_as_plus : Bool}
    (hplus : plus = true → space_as_plus = true) (str rest : Bytes) :
    decoded space_as_plus (str.flatMap (code plus) ++ rest) =
      str ++ decoded space_as_plus rest := by
  induction str with
  | nil => rfl
  | cons x str ih =>
    rw [List.flatMap_cons, List.append_assoc, decoded_code hplus, ih, List.cons_append]

end Decode

/-- **Encoding and decoding.** What `UrlEncode` makes reads back with the same flag, and a text
    without a plus for a blank with either; and `UrlDecode` makes of any text, without a read beyond
    its end, what it is to make. -/
theorem urlDecode_urlEncode (str : Bytes) (space_as_plus : Bool) :
    StringUtil.urlDecode (StringUtil.urlEncode str space_as_plus) space_as_plus = some str ∧
      StringUtil.urlDecode (StringUtil.urlEncode str false) true = some str ∧
      ∃ out, StringUtil.urlDecode str space_as_plus = some out ∧
        Decodes space_as_plus str out := by
  have hback : ∀ {plus space_as_plus : Bool}, (plus = true → space_as_plus = true) →
      StringUtil.urlDecode (StringUtil.urlEncode str plus) space_as_plus = some str := by
    intro plus space_as_plus hplus
    have hdecoded := decoded_flatMap_code hplus str []
    rw [List.append_nil, decoded, List.append_nil] at hdecoded
    rw [urlDecode_eq, urlEncode_eq, hdecoded]
  exact ⟨hback id, hback nofun, _, urlDecode_eq _ _, decodes_decoded _ _⟩

end LimWebserver.Http
