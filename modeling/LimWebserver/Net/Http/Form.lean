import LimWebserver.Net.Http.Headers
import LimWebserver.Net.Http.Url

namespace LimWebserver.Http

open Lib.Pieces

/-!
# Http — forms

A form is a list of encoded pairs.  `PARSE_PARAM` decodes its values, and takes its keys as they
are, up to the first equals sign, which `UrlEncode` leaves in them.

* `form` — the text of a list of pairs; `Carries` — a request with the text in its query or body;
* `WholeRequest.getParam` — both parsers, and the search;
* `Returned` — the parameters are the pairs;
* `form_splitOn`, `reference_form` — the pieces of the text, and what is inserted;
* `plain_of_found` — keys that are all found encoded need no encoding;
* `getParam_encoded_key` — a blank in a key; `form_returned_iff` — all forms.
-/

/-- `UrlEncode(k) + "=" + UrlEncode(v)` -/
def pair (p : Bytes × Bytes) : Bytes :=
  StringUtil.urlEncode p.1 true ++ 61 :: StringUtil.urlEncode p.2 true

/-- The pairs, joined by `&`. -/
def form (ps : List (Bytes × Bytes)) : Bytes := [38].intercalate (ps.map pair)

/-- The text is the query, or the body of a form; and there is no parameter in the other one. -/
def Carries (q : WholeRequest) (text : Bytes) : Prop :=
  (q.m_query = text ∧ (q.isForm = true → 61 ∉ q.m_body)) ∨
    (q.isForm = true ∧ q.m_body = text ∧ 61 ∉ q.m_query)

namespace WholeRequest

variable (fuel : Nat) (q : WholeRequest)

/-- `initQueryParam(); initBodyParam();` -/
def parsed : Option WholeRequest := (q.initQueryParam fuel).bind (initBodyParam fuel)

def getParam (key def_ : Bytes) : Option Bytes :=
  (q.parsed fuel).map fun q => (MapType.get q.m_params key).getD def_

end WholeRequest

/-- **The parameters are the pairs**: each value is returned, whatever the default, and there is no
    other entry. -/
structure Returned (fuel : Nat) (q : WholeRequest) (ps : List (Bytes × Bytes)) : Prop where
  values : ∀ p ∈ ps, ∀ def_, q.getParam fuel p.1 def_ = some p.2
  entries : ∃ q', q.parsed fuel = some q' ∧ ∀ e ∈ q'.m_params, e ∈ ps

/-- Keys that are written as they are, and end at no equals sign of their own. -/
def PlainKey (key : Bytes) : Prop := ∀ x ∈ key, unreserved x = true ∧ x ≠ 61

instance (key : Bytes) : Decidable (PlainKey key) :=
  inferInstanceAs (Decidable (∀ x ∈ key, unreserved x = true ∧ x ≠ 61))

/-! ### Encoded texts -/

section Encoded

variable {text key : Bytes} {x y : UInt8}

theorem mem_urlEncode : y ∈ StringUtil.urlEncode text true ↔ ∃ x ∈ text, y ∈ code true x := by
  rw [urlEncode_eq, List.mem_flatMap]

/-- A reserved byte of a code comes from a reserved byte. -/
theorem reserved_of_mem_code (hy : y ∈ code true x) (hres : unreserved y = false) :
    unreserved x = false := by
  by_contra hx
  rw [Bool.not_eq_false] at hx
  rw [code_of_unreserved hx, List.mem_singleton] at hy
  rw [hy, hx] at hres
  exact absurd hres Bool.noConfusion

/-- A code is an unreserved byte, or a plus, or an escape. -/
theorem mem_code (hy : y ∈ code true x) :
    unreserved x = true ∧ y = x ∨ y ∈ chars "+%0123456789ABCDEF" := by
  have hhex : ∀ x : UInt8, hexdigit (x >>> 4) ∈ chars "+%0123456789ABCDEF" ∧
      hexdigit (x &&& 0xf) ∈ chars "+%0123456789ABCDEF" := forall_byte (by decide +kernel)
  rw [code] at hy
  split_ifs at hy with hres hblank
  · exact .inl ⟨hres, List.mem_singleton.mp hy⟩
  · rw [List.mem_singleton.mp hy]
    exact .inr (by decide)
  · simp only [List.mem_cons, List.not_mem_nil, or_false] at hy
    rcases hy with rfl | rfl | rfl
    · exact .inr (by decide)
    · exact .inr (hhex x).1
    · exact .inr (hhex x).2

/-- No code has a zero, a blank or a separator in it. -/
theorem not_mem_code (x : UInt8) : 0 ∉ code true x ∧ 32 ∉ code true x ∧ 38 ∉ code true x := by
  have hnot : ∀ y, unreserved y = false → y ∉ chars "+%0123456789ABCDEF" → y ∉ code true x := by
    intro y hres hy hmem
    rcases mem_code hmem with ⟨hx, rfl⟩ | hmem
    · rw [hres] at hx
      cases hx
    · exact hy hmem
  exact ⟨hnot 0 (by decide +kernel) (by decide), hnot 32 (by decide +kernel) (by decide),
    hnot 38 (by decide +kernel) (by decide)⟩

theorem not_mem_urlEncode (text : Bytes) : 0 ∉ StringUtil.urlEncode text true ∧
    32 ∉ StringUtil.urlEncode text true ∧ 38 ∉ StringUtil.urlEncode text true := by
  simp only [mem_urlEncode, not_exists, not_and]
  exact ⟨fun x _ => (not_mem_code x).1, fun x _ => (not_mem_code x).2.1,
    fun x _ => (not_mem_code x).2.2⟩

theorem urlEncode_of_plain (h : PlainKey key) : StringUtil.urlEncode key true = key := by
  rw [urlEncode_eq]
  induction key with
  | nil => rfl
  | cons x key ih =>
    rw [List.flatMap_cons, code_of_unreserved (h x List.mem_cons_self).1,
      ih fun y hy => h y (List.mem_cons_of_mem _ hy)]
    rfl

/-- Codes are not empty, and those of reserved bytes other than a blank are longer. -/
theorem length_code (x : UInt8) : 1 ≤ (code true x).length ∧
    (unreserved x = false → x ≠ 32 → 1 < (code true x).length) := by
  constructor
  · rw [code]
    split_ifs <;> simp
  · intro hres hne
    rw [code, if_neg (by simp [hres]), if_neg fun h => hne h.1]
    simp

theorem length_le_urlEncode (text : Bytes) :
    text.length ≤ (StringUtil.urlEncode text true).length := by
  rw [urlEncode_eq]
  induction text with
  | nil => exact Nat.le_refl _
  | cons x text ih =>
    rw [List.flatMap_cons, List.length_append, List.length_cons]
    have := (length_code x).1
    omega

theorem length_lt_urlEncode (hx : x ∈ text) (hres : unreserved x = false) (hne : x ≠ 32) :
    text.length < (StringUtil.urlEncode text true).length := by
  obtain ⟨a, b, rfl⟩ := List.append_of_mem hx
  have hcode := (length_code x).2 hres hne
  have ha := length_le_urlEncode a
  have hb := length_le_urlEncode b
  rw [urlEncode_eq] at ha hb ⊢
  rw [List.flatMap_append, List.flatMap_cons]
  simp only [List.length_append, List.length_cons]
  omega

/-- Capitals and small letters are unreserved alike. -/
theorem unreserved_tolower (x : UInt8) : unreserved (tolower x) = unreserved x := by
  revert x
  exact forall_byte (by decide +kernel)

/-- A byte that is no letter is what it is folded to. -/
theorem eq_of_tolower_eq : ∀ y : UInt8, (tolower y = 32 → y = 32) ∧ (tolower y = 61 → y = 61) :=
  forall_byte (by decide +kernel)

/-- **Keys that are all found encoded** need no encoding: a reserved byte in one comes from a
    shorter key with one in it. -/
theorem plain_of_found {K : Bytes → Prop}
    (h : ∀ key, K key → ∃ key', K key' ∧
      key.map tolower = (StringUtil.urlEncode key' true).map tolower) :
    ∀ key, K key → ∀ x ∈ key, unreserved x = true := by
  have hblank : ∀ key, K key → 32 ∉ key := by
    intro key hkey hmem
    obtain ⟨key', -, heq⟩ := h key hkey
    have hmem' := List.mem_map_of_mem (f := tolower) hmem
    rw [heq] at hmem'
    obtain ⟨y, hy, htolower⟩ := List.mem_map.mp hmem'
    obtain rfl := (eq_of_tolower_eq y).1 htolower
    exact (not_mem_urlEncode key').2.1 hy
  intro key
  induction hn : key.length using Nat.strongRecOn generalizing key with
  | _ n ih =>
    intro hkey x hx
    by_contra hres
    rw [Bool.not_eq_true] at hres
    obtain ⟨key', hkey', heq⟩ := h key hkey
    have hmem := List.mem_map_of_mem (f := tolower) hx
    rw [heq] at hmem
    obtain ⟨y, hy, htolower⟩ := List.mem_map.mp hmem
    have hresy : unreserved y = false := by
      rw [← unreserved_tolower, htolower, unreserved_tolower, hres]
    obtain ⟨x', hx', hcode⟩ := mem_urlEncode.mp hy
    have hres' := reserved_of_mem_code hcode hresy
    have hlt := length_lt_urlEncode hx' hres' fun hblank' => hblank key' hkey' (hblank' ▸ hx')
    have hlength := congrArg List.length heq
    rw [List.length_map, List.length_map] at hlength
    have hun := ih key'.length (by omega) key' rfl hkey' x' hx'
    rw [hun] at hres'
    exact absurd hres' Bool.noConfusion

end Encoded

/-! ### What is inserted -/

/-- The entry that the piece of a pair makes. -/
def entry (p : Bytes × Bytes) : Bytes × Bytes :=
  ((pair p).takeWhile (· ≠ 61), urlDecode ((pair p).dropWhile (· ≠ 61)).tail)

def inserted (m : MapType) (ps : List (Bytes × Bytes)) : MapType :=
  ps.foldl (fun m p => m.insert (entry p).1 (entry p).2) m

section Inserted

variable {ps : List (Bytes × Bytes)} {p e : Bytes × Bytes} {m : MapType} {key key' val : Bytes}

theorem pair_not_mem (p : Bytes × Bytes) : 0 ∉ pair p ∧ 38 ∉ pair p := by
  obtain ⟨hkey0, -, hkey⟩ := not_mem_urlEncode p.1
  obtain ⟨hval0, -, hval⟩ := not_mem_urlEncode p.2
  simp only [pair, List.mem_append, List.mem_cons, not_or]
  exact ⟨⟨hkey0, by decide, hval0⟩, hkey, by decide, hval⟩

/-- **The pieces of a form** are one run for each pair. -/
theorem merged_form (ps : List (Bytes × Bytes)) (m : MapType) :
    merged 38 id m (runs 61 [] ((form ps).splitOn 38)) = inserted m ps := by
  cases ps with
  | nil => rfl
  | cons p ps =>
    have hpieces : (form (p :: ps)).splitOn 38 = (p :: ps).map pair := by
      refine List.splitOn_intercalate 38 (fun l hl => ?_) (List.cons_ne_nil _ _)
      obtain ⟨p', -, rfl⟩ := List.mem_map.mp hl
      exact (pair_not_mem p').2
    have heq : ∀ l ∈ (p :: ps).map pair, 61 ∈ l := by
      intro l hl
      obtain ⟨p', -, rfl⟩ := List.mem_map.mp hl
      exact List.mem_append_right _ List.mem_cons_self
    rw [hpieces, runs_of_forall heq, List.map_map, merged, List.foldl_map, inserted]
    rfl

/-- The key of an entry: no zero, no equals sign. -/
theorem entry_not_mem (p : Bytes × Bytes) : 0 ∉ (entry p).1 ∧ 61 ∉ (entry p).1 := by
  refine ⟨fun h => (pair_not_mem p).1 ((List.takeWhile_sublist _).subset h), fun h => ?_⟩
  simpa using List.mem_takeWhile_imp h

/-- A key without an equals sign is written as it is encoded, and the value is read back. -/
theorem entry_eq (h : 61 ∉ p.1) : entry p = (StringUtil.urlEncode p.1 true, p.2) := by
  have hcode : ∀ x, 61 ∈ code true x → x = 61 := fun x hx =>
    ((mem_code hx).resolve_right (by decide)).2.symm
  have hkey : 61 ∉ StringUtil.urlEncode p.1 true := by
    intro hmem
    obtain ⟨x, hx, hcode'⟩ := mem_urlEncode.mp hmem
    exact h (hcode x hcode' ▸ hx)
  obtain ⟨htake, hdrop⟩ := span_first hkey (StringUtil.urlEncode p.2 true)
  have hvalue := (urlDecode_urlEncode p.2 true).1
  rw [urlDecode_eq, decoded_true, Option.some.injEq] at hvalue
  rw [entry, pair, htake, hdrop, List.tail_cons, hvalue]

namespace MapType

theorem mem_insert (h : e ∈ m.insert key val) : e = (key, val) ∨ e ∈ m := by
  induction m with
  | nil => exact .inl (List.mem_singleton.mp h)
  | cons e₀ m ih =>
    rw [insert] at h
    split at h
    · exact List.mem_cons.mp h
    · exact .inr h
    · rcases List.mem_cons.mp h with rfl | h
      · exact .inr List.mem_cons_self
      · exact (ih h).imp_right fun h => List.mem_cons_of_mem _ h

/-- An insertion under another key. -/
theorem get_insert_of_ne (h : fold key ≠ fold key') :
    (m.insert key val).get key' = m.get key' := by
  have hskip : ∀ m : MapType, MapType.get ((key, val) :: m) key' = m.get key' := by
    intro m
    rw [MapType.get, List.find?_cons_of_neg (by simpa [strcasecmp_eq_iff] using h), MapType.get]
  induction m with
  | nil => exact hskip []
  | cons e m ih =>
    rw [insert]
    split
    · exact hskip (e :: m)
    · rfl
    · rw [MapType.get, MapType.get, List.find?_cons, List.find?_cons]
      cases hkey : decide (strcasecmp e.1 key' = .eq) with
      | true => rfl
      | false => exact ih

/-- An insertion under a key that is new. -/
theorem get_insert_self (h : ∀ e ∈ m, fold e.1 ≠ fold key) :
    (m.insert key val).get key = some val := by
  have hfirst : ∀ m : MapType, MapType.get ((key, val) :: m) key = some val := by
    intro m
    rw [MapType.get, List.find?_cons_of_pos (by simp [strcasecmp_eq_iff])]
    rfl
  induction m with
  | nil => exact hfirst []
  | cons e m ih =>
    have he := h e List.mem_cons_self
    rw [insert]
    split
    case h_1 => exact hfirst (e :: m)
    case h_2 heq => exact absurd (strcasecmp_eq_iff.mp heq).symm he
    case h_3 =>
      rw [MapType.get, List.find?_cons_of_neg (by simpa [strcasecmp_eq_iff] using he)]
      exact ih fun e he => h e (List.mem_cons_of_mem _ he)

end MapType

theorem mem_inserted (h : e ∈ inserted m ps) : e ∈ m ∨ ∃ p ∈ ps, e = entry p := by
  induction ps generalizing m with
  | nil => exact .inl h
  | cons p ps ih =>
    rw [inserted, List.foldl_cons, ← inserted] at h
    rcases ih h with h | ⟨p', hp', rfl⟩
    · rcases MapType.mem_insert h with rfl | h
      · exact .inr ⟨p, List.mem_cons_self, rfl⟩
      · exact .inl h
    · exact .inr ⟨p', List.mem_cons_of_mem _ hp', rfl⟩

theorem get_inserted_of_ne (h : ∀ p ∈ ps, fold (entry p).1 ≠ fold key) :
    MapType.get (inserted m ps) key = MapType.get m key := by
  induction ps generalizing m with
  | nil => rfl
  | cons p ps ih =>
    rw [inserted, List.foldl_cons, ← inserted, ih fun p hp => h p (List.mem_cons_of_mem _ hp),
      MapType.get_insert_of_ne (h p List.mem_cons_self)]

/-- **Keys that differ** are all found. -/
theorem get_inserted (hm : ∀ p ∈ ps, ∀ e ∈ m, fold e.1 ≠ fold (entry p).1)
    (hdistinct : ps.Pairwise fun p p' => fold (entry p).1 ≠ fold (entry p').1) (hp : p ∈ ps) :
    MapType.get (inserted m ps) (entry p).1 = some (entry p).2 := by
  induction ps generalizing m with
  | nil => exact absurd hp List.not_mem_nil
  | cons p₀ ps ih =>
    obtain ⟨hfirst, hrest⟩ := List.pairwise_cons.mp hdistinct
    rw [inserted, List.foldl_cons, ← inserted]
    rcases List.mem_cons.mp hp with rfl | hp
    · rw [get_inserted_of_ne fun p' hp' => (hfirst p' hp').symm]
      exact MapType.get_insert_self (hm p List.mem_cons_self)
    · refine ih (fun p' hp' e he => ?_) hrest hp
      rcases MapType.mem_insert he with rfl | he
      · exact hfirst p' hp'
      · exact hm p' (List.mem_cons_of_mem _ hp') e he

end Inserted

/-! ### The two parsers -/

section Parsed

variable {q : WholeRequest} {fuel : Nat} {ps : List (Bytes × Bytes)} {text : Bytes}

/-- A text without an equals sign adds nothing. -/
theorem merged_none (h : 61 ∉ text) (m : MapType) :
    merged 38 id m (runs 61 [] (text.splitOn 38)) = m := by
  rw [runs_none h]
  rfl

theorem initQueryParam_eq (hflag : q.m_parserParamFlag &&& 0x1 = 0)
    (hfuel : q.m_query.length < fuel) : q.initQueryParam fuel =
      some { q with
        m_params := merged 38 id q.m_params (runs 61 [] (q.m_query.splitOn 38))
        m_parserParamFlag := q.m_parserParamFlag ||| 0x1 } := by
  rw [WholeRequest.initQueryParam, if_neg (not_not.mpr hflag),
    parseParam_eq (by decide) fuel 0 _ (by rw [Nat.sub_zero]; exact hfuel)]
  rfl

theorem initBodyParam_eq (hflag : q.m_parserParamFlag &&& 0x2 = 0)
    (hfuel : q.m_body.length < fuel) : q.initBodyParam fuel =
      some { q with
        m_params := if q.isForm then merged 38 id q.m_params (runs 61 [] (q.m_body.splitOn 38))
          else q.m_params
        m_parserParamFlag := q.m_parserParamFlag ||| 0x2 } := by
  rw [WholeRequest.initBodyParam, if_neg (not_not.mpr hflag)]
  cases hform : q.isForm with
  | false => rw [if_pos rfl, if_neg Bool.false_ne_true]
  | true =>
    rw [if_neg Bool.noConfusion, if_pos rfl,
      parseParam_eq (by decide) fuel 0 _ (by rw [Nat.sub_zero]; exact hfuel)]
    rfl

/-- **Parsing a form** inserts an entry for each pair. -/
theorem parsed_eq (hparams : q.m_params = []) (hflag : q.m_parserParamFlag = 0)
    (hcarries : Carries q (form ps)) (hquery : q.m_query.length < fuel)
    (hbody : q.m_body.length < fuel) :
    ∃ q', q.parsed fuel = some q' ∧ q'.m_params = inserted [] ps := by
  have hfirst : q.m_parserParamFlag &&& 0x1 = 0 := by
    rw [hflag]
    decide
  have hsecond : (q.m_parserParamFlag ||| 0x1) &&& 0x2 = 0 := by
    rw [hflag]
    decide
  have hcall : q.parsed fuel = (WholeRequest.initBodyParam fuel { q with
      m_params := merged 38 id q.m_params (runs 61 [] (q.m_query.splitOn 38))
      m_parserParamFlag := q.m_parserParamFlag ||| 0x1 }) := by
    rw [WholeRequest.parsed, initQueryParam_eq hfirst hquery, Option.bind_some]
  refine ⟨_, hcall.trans (initBodyParam_eq hsecond hbody), ?_⟩
  show (if q.isForm then _ else _) = _
  rcases hcarries with ⟨hq, hnone⟩ | ⟨hform, hb, hnone⟩
  · rw [hparams, hq, merged_form]
    split_ifs with hform
    · exact merged_none (hnone hform) _
    · rfl
  · rw [if_pos hform, hparams, merged_none hnone, hb, merged_form]

/-- A value that is returned whatever the default is in the map. -/
theorem get_of_getParam {q' : WholeRequest} {key val : Bytes} (hparsed : q.parsed fuel = some q')
    (h : ∀ def_, q.getParam fuel key def_ = some val) : MapType.get q'.m_params key = some val := by
  have hdef := h (0 :: val)
  rw [WholeRequest.getParam, hparsed, Option.map_some, Option.some.injEq] at hdef
  cases hget : MapType.get q'.m_params key with
  | some v => rw [← hdef, hget, Option.getD_some]
  | none =>
    -- the default would be the value
    rw [hget, Option.getD_none] at hdef
    exact absurd hdef (List.cons_ne_self 0 val)

end Parsed

/-- **A blank in a key** is not decoded. -/
theorem getParam_encoded_key :
    ¬ ∀ (q : WholeRequest) (fuel : Nat) (ps : List (Bytes × Bytes)), q.m_params = [] →
      q.m_parserParamFlag = 0 → Carries q (form ps) → (∀ p ∈ ps, 0 ∉ p.1 ∧ 0 ∉ p.2 ∧ p.1 ≠ []) →
        (ps.Pairwise fun p p' => strcasecmp p.1 p'.1 ≠ .eq) → q.m_query.length < fuel →
          q.m_body.length < fuel → ∀ p ∈ ps, q.getParam fuel p.1 [] = some p.2 := by
  intro h
  have hcall := h (received { HttpRequest.new with m_query := chars "a+b=1" }) 6
    [(chars "a b", chars "1")] rfl rfl ?_ (by decide) (List.pairwise_singleton _ _) (by decide)
    (by decide) (chars "a b", chars "1") List.mem_cons_self
  · exact absurd hcall (by decide +kernel)
  · refine .inl ⟨?_, fun _ => List.not_mem_nil⟩
    rw [form, List.map_singleton, List.intercalate_singleton, pair, urlEncode_eq, urlEncode_eq]
    decide

/-- **The form round trip.** The parameters of a form are its pairs exactly if every key consists of
    unreserved characters without the equals sign. -/
theorem form_returned_iff (q : WholeRequest) (fuel : Nat) (ps : List (Bytes × Bytes))
    (hparams : q.m_params = []) (hflag : q.m_parserParamFlag = 0) (hcarries : Carries q (form ps))
    (hnul : ∀ p ∈ ps, 0 ∉ p.1) (hdistinct : ps.Pairwise fun p p' => strcasecmp p.1 p'.1 ≠ .eq)
    (hquery : q.m_query.length < fuel) (hbody : q.m_body.length < fuel) :
    Returned fuel q ps ↔ ∀ p ∈ ps, PlainKey p.1 := by
  obtain ⟨q', hparsed, hmap⟩ := parsed_eq hparams hflag hcarries hquery hbody
  constructor
  · intro h
    -- every key is that of an entry, up to case
    have hfound : ∀ p ∈ ps, ∃ p' ∈ ps, p.1.map tolower = (entry p').1.map tolower := by
      intro p hp
      have hget := get_of_getParam hparsed (h.values p hp)
      rw [hmap] at hget
      obtain ⟨name, hmem, hfold⟩ := MapType.mem_of_get hget
      rcases mem_inserted hmem with hmem | ⟨p', hp', heq⟩
      · exact absurd hmem List.not_mem_nil
      · obtain rfl : name = (entry p').1 := congrArg Prod.fst heq
        rw [fold_of_not_mem (entry_not_mem p').1, fold_of_not_mem (hnul p hp)] at hfold
        exact ⟨p', hp', hfold.symm⟩
    have hequals : ∀ p ∈ ps, 61 ∉ p.1 := by
      intro p hp hmem
      obtain ⟨p', -, heq⟩ := hfound p hp
      have hmem' := List.mem_map_of_mem (f := tolower) hmem
      rw [heq] at hmem'
      obtain ⟨y, hy, htolower⟩ := List.mem_map.mp hmem'
      obtain rfl := (eq_of_tolower_eq y).2 htolower
      exact (entry_not_mem p').2 hy
    have hplain := plain_of_found (K := fun key => ∃ p ∈ ps, p.1 = key) ?_
    · exact fun p hp x hx => ⟨hplain p.1 ⟨p, hp, rfl⟩ x hx, fun h61 => hequals p hp (h61 ▸ hx)⟩
    · rintro _ ⟨p, hp, rfl⟩
      obtain ⟨p', hp', heq⟩ := hfound p hp
      rw [entry_eq (hequals p' hp')] at heq
      exact ⟨p'.1, ⟨p', hp', rfl⟩, heq⟩
  · intro h
    have hentry : ∀ p ∈ ps, entry p = p := by
      intro p hp
      rw [entry_eq fun hmem => (h p hp 61 hmem).2 rfl, urlEncode_of_plain (h p hp)]
    have hfolds : ps.Pairwise fun p p' => fold (entry p).1 ≠ fold (entry p').1 := by
      refine hdistinct.imp_of_mem fun hp hp' hne => ?_
      rwa [hentry _ hp, hentry _ hp', ne_eq, ← strcasecmp_eq_iff]
    refine ⟨fun p hp def_ => ?_, q', hparsed, fun e he => ?_⟩
    · have hget := get_inserted (m := []) (fun _ _ _ he => absurd he List.not_mem_nil) hfolds hp
      rw [hentry p hp] at hget
      rw [WholeRequest.getParam, hparsed, Option.map_some, hmap, hget, Option.getD_some]
    · rw [hmap] at he
      rcases mem_inserted he with he | ⟨p, hp, rfl⟩
      · exact absurd he List.not_mem_nil
      · rw [hentry p hp]
        exact hp

/-- Separators in a value, and a value that is empty. -/
theorem form_returned_iff_values :
    Returned 18 (received { HttpRequest.new with m_query := chars "Name=a=b+%26+c&x=" })
      [(chars "Name", chars "a=b & c"), (chars "x", [])] := by
  have hform : form [(chars "Name", chars "a=b & c"), (chars "x", [])] =
      chars "Name=a=b+%26+c&x=" := by
    decide +kernel
  refine (form_returned_iff _ _ _ rfl rfl (.inl ⟨hform.symm, fun _ => List.not_mem_nil⟩) ?_ ?_ ?_
    ?_).mpr ?_
  all_goals decide +kernel

end LimWebserver.Http
