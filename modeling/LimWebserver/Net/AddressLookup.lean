import LimWebserver.Lib.CString
import LimWebserver.Net.Http.Request

namespace LimWebserver.AddressLookup

open Http Lib.CString

/-!
# Net — splitting a host into node and service

`Address::Lookup` looks for brackets at the front of the string, and otherwise for colons anywhere.
Where it finds more than one colon, the whole string becomes the node, but the service goes on
pointing to the first of them.

* `inBrackets`, `behindColon`, `split` — the code, with what `getaddrinfo` reads of its result;
* `bracketed`, `colons`, `meaning` — what the notation means;
* `split_bracketed`, `split_of_not_mem`, `split_one`, `split_many` — what the code does;
* `split_isSome` — it stays within the string;
* `split_iff` — the hosts for which it does what the notation means.
-/

/-- A host that may begin with an IPv6 address: the node, and where the service stands.
    None if the string is left. -/
def inBrackets (host : Bytes) : Option (Bytes × Option Nat) := do
  if host.head? = some 91 then
    match ← memchr (c_str host) 1 93 (host.length - 1) with
    | some endipv6 =>
      let next ← (c_str host)[endipv6 + 1]?
      return ((host.drop 1).take (endipv6 - 1), if next = 58 then some (endipv6 + 2) else none)
    | none => return ([], none)
  else return ([], none)

/-- Any other host. With a second colon there is no node, and the service is not changed back. -/
def behindColon (host : Bytes) : Option (Bytes × Option Nat) := do
  match ← memchr (c_str host) 0 58 host.length with
  | some service =>
    match ← memchr (c_str host) (service + 1) 58 (host.length - service - 1) with
    | none => return (host.take service, some (service + 1))
    | some _ => return ([], some service)
  | none => return ([], none)

/-- `Lookup`: the two strings that `getaddrinfo` reads. -/
def split (host : Bytes) : Option (Bytes × Option Bytes) := do
  let (node, service) ← inBrackets host
  let (node, service) ← if node = [] then behindColon host else some (node, service)
  let node := if node = [] then host else node
  match service with
  | some p => return (cstr node, some (← stringAt (c_str host) p))
  | none => return (cstr node, none)

/-! ### The notation -/

/-- What stands in brackets at the front, and what stands behind them. -/
def bracketed : Bytes → Option (Bytes × Bytes)
  | 91 :: t =>
    if 93 ∈ t ∧ t.head? ≠ some 93 then
      some (t.takeWhile (· ≠ 93), (t.dropWhile (· ≠ 93)).tail)
    else none
  | _ => none

/-- A place is in brackets if one is open before it that is closed behind it. -/
def Enclosed (pre post : Bytes) : Prop := 91 ∈ pre.reverse.takeWhile (· ≠ 93) ∧ 93 ∈ post

instance (pre post : Bytes) : Decidable (Enclosed pre post) :=
  inferInstanceAs (Decidable (_ ∧ _))

/-- The colons outside brackets, each as what stands before it and what stands behind it. -/
def colons : Bytes → Bytes → List (Bytes × Bytes)
  | _, [] => []
  | pre, b :: post =>
    (if b = 58 ∧ ¬Enclosed pre post then [(pre, post)] else []) ++ colons (pre ++ [b]) post

/-- Node and service on both sides of the only colon, if there is one and something before it. -/
def byColons (host : Bytes) : Bytes × Option Bytes :=
  match colons [] host with
  | [(pre, post)] => if pre ≠ [] then (pre, some post) else (host, none)
  | _ => (host, none)

/-- The node and the service of a host. -/
def meaning (host : Bytes) : Bytes × Option Bytes :=
  match bracketed host with
  | some (x, []) => (x, none)
  | some (x, 58 :: s) => (x, some s)
  | _ => byColons host

/-- Nothing but a service behind the brackets at the front; without these, no colon or one that is
    not the first character and not in brackets. -/
def Plain (host : Bytes) : Prop :=
  match bracketed host with
  | some (_, rest) => rest = [] ∨ rest.head? = some 58
  | none => 58 ∉ host ∨ ∃ pre post, host = pre ++ 58 :: post ∧ pre ≠ [] ∧ 58 ∉ pre ∧ 58 ∉ post ∧
      ¬Enclosed pre post

/-! ### Brackets -/

variable {host x rest pre post : Bytes}

theorem bracketed_append (hx : 93 ∉ x) :
    bracketed (91 :: (x ++ 93 :: rest)) = if x ≠ [] then some (x, rest) else none := by
  have hne : ∀ b ∈ x, decide (b ≠ 93) = true := fun b hb =>
    decide_eq_true fun hb93 => hx (hb93 ▸ hb)
  rw [bracketed, List.takeWhile_append_of_pos hne, List.dropWhile_append_of_pos hne]
  cases x with
  | nil => simp
  | cons b x =>
    have hb : b ≠ 93 := fun hb => hx (hb ▸ List.mem_cons_self)
    simp [hb]

/-- The three shapes of a host. -/
theorem bracketed_cases (host : Bytes) : (∃ x rest, host = 91 :: (x ++ 93 :: rest) ∧ 93 ∉ x) ∨
    (∃ t, host = 91 :: t ∧ 93 ∉ t) ∨ host.head? ≠ some 91 := by
  by_cases h : host.head? = some 91
  · obtain ⟨t, rfl⟩ : ∃ t, host = 91 :: t := List.head?_eq_some_iff.mp h
    by_cases ht : 93 ∈ t
    · obtain ⟨x, rest, rfl, hx⟩ := List.eq_append_cons_of_mem ht
      exact .inl ⟨x, rest, rfl, hx⟩
    · exact .inr (.inl ⟨t, rfl, ht⟩)
  · exact .inr (.inr h)

theorem eq_of_bracketed (h : bracketed host = some (x, rest)) :
    host = 91 :: (x ++ 93 :: rest) ∧ x ≠ [] ∧ 93 ∉ x := by
  rcases bracketed_cases host with ⟨x', rest', rfl, hx⟩ | ⟨t, rfl, ht⟩ | hhead
  · rw [bracketed_append hx] at h
    split_ifs at h with hne
    obtain ⟨rfl, rfl⟩ := Prod.mk.inj (Option.some.inj h)
    exact ⟨rfl, hne, hx⟩
  · rw [bracketed, if_neg fun h => ht h.1] at h
    cases h
  · cases host with
    | nil => cases h
    | cons b t =>
      have hb : b ≠ 91 := fun hb => hhead (congrArg some hb)
      rw [bracketed] at h
      · cases h
      · exact fun t' ht' => hb (List.cons.inj ht').1

theorem inBrackets_append (hx : 93 ∉ x) : inBrackets (91 :: (x ++ 93 :: rest)) =
    some (x, if rest.head? = some 58 then some (x.length + 3) else none) := by
  have hfound : memchr (c_str (91 :: (x ++ 93 :: rest))) 1 93 (x ++ 93 :: rest).length =
      some (some (1 + x.length)) := memchr_eq_some [91] [0] hx
  have hnext : (c_str (91 :: (x ++ 93 :: rest)))[1 + x.length + 1]? = some (rest.headD 0) := by
    have hsplit : c_str (91 :: (x ++ 93 :: rest)) = (91 :: x ++ [93]) ++ c_str rest := by
      simp [c_str]
    have hlen : (91 :: x ++ [93]).length = 1 + x.length + 1 := by simp +arith
    rw [hsplit, ← hlen, List.getElem?_append_right (Nat.le_refl _), Nat.sub_self]
    cases rest with
    | nil => rfl
    | cons b rest => rfl
  have hnode : ((91 :: (x ++ 93 :: rest)).drop 1).take (1 + x.length - 1) = x := by
    rw [Nat.add_sub_cancel_left, List.drop_one, List.tail_cons, List.take_left]
  rw [inBrackets, if_pos List.head?_cons, List.length_cons, Nat.add_sub_cancel, hfound]
  simp only [Option.bind_eq_bind, Option.bind_some, hnext, hnode, Option.pure_def]
  cases rest with
  | nil => simp
  | cons b rest => simp [Nat.add_comm]

/-- **A host with brackets at the front**: nothing but a colon is looked at behind them. -/
theorem split_bracketed (h : bracketed host = some (x, rest)) :
    split host = some (cstr x, if rest.head? = some 58 then some (cstr rest.tail) else none) := by
  obtain ⟨rfl, hne, hx⟩ := eq_of_bracketed h
  rw [split, inBrackets_append hx]
  simp only [Option.bind_eq_bind, Option.bind_some, if_neg hne]
  by_cases hcolon : rest.head? = some 58
  · obtain ⟨s, rfl⟩ : ∃ s, rest = 58 :: s := List.head?_eq_some_iff.mp hcolon
    have hdrop : (91 :: (x ++ 93 :: 58 :: s)).drop (x.length + 3) = s := by
      rw [List.drop_succ_cons, List.drop_append]
      simp
    have hservice : stringAt (c_str (91 :: (x ++ 93 :: 58 :: s))) (x.length + 3) =
        some (cstr s) := by
      rw [stringAt_c_str (by simp), hdrop]
    simp [hservice]
  · simp [hcolon]

/-- In all other hosts the colons decide. -/
theorem split_of_bracketed_eq_none (h : bracketed host = none) :
    split host = (behindColon host).bind fun (node, service) =>
      let node := if node = [] then host else node
      match service with
      | some p => (stringAt (c_str host) p).map fun s => (cstr node, some s)
      | none => some (cstr node, none) := by
  have hnode : ∃ service, inBrackets host = some ([], service) := by
    rcases bracketed_cases host with ⟨x, rest, rfl, hx⟩ | ⟨t, rfl, ht⟩ | hhead
    · rw [bracketed_append hx] at h
      split_ifs at h with hne
      rw [inBrackets_append hx, not_not.mp hne]
      exact ⟨_, rfl⟩
    · have hnone : memchr (c_str (91 :: t)) 1 93 t.length = some none :=
        memchr_eq_none [91] [0] ht
      exact ⟨none, by simp [inBrackets, hnone]⟩
    · exact ⟨none, by simp [inBrackets, hhead]⟩
  obtain ⟨service, hnode⟩ := hnode
  rw [split, hnode]
  simp only [Option.bind_eq_bind, Option.bind_some, if_true]
  refine congrArg _ (funext fun (node, service) => ?_)
  cases service with
  | none => rfl
  | some p => cases hp : stringAt (c_str host) p <;> simp [hp]

/-! ### Colons -/

theorem split_of_not_mem (hbr : bracketed host = none) (h : 58 ∉ host) :
    split host = some (cstr host, none) := by
  have hnone : memchr (c_str host) 0 58 host.length = some none :=
    memchr_eq_none [] [0] h
  rw [split_of_bracketed_eq_none hbr, behindColon, hnone]
  rfl

/-- The first colon, and the place behind it from which the next one is looked for. -/
theorem behindColon_append (hpre : 58 ∉ pre) : behindColon (pre ++ 58 :: post) =
    some (if 58 ∈ post then ([], some pre.length) else (pre, some (pre.length + 1))) := by
  have hfirst : memchr (c_str (pre ++ 58 :: post)) 0 58 (pre ++ 58 :: post).length =
      some (some pre.length) := by
    have h := memchr_eq_some [] [0] (t := post) hpre
    rwa [List.length_nil, Nat.zero_add] at h
  have hsplit : c_str (pre ++ 58 :: post) = (pre ++ [58]) ++ post ++ [0] := by simp [c_str]
  have hlen : (pre ++ 58 :: post).length - pre.length - 1 = post.length := by simp
  have hpos : pre.length + 1 = (pre ++ [58]).length := by simp
  rw [behindColon, hfirst]
  simp only [Option.bind_eq_bind, Option.bind_some]
  rw [hlen, hsplit]
  by_cases hpost : 58 ∈ post
  · obtain ⟨mid, post', rfl, hmid⟩ := List.eq_append_cons_of_mem hpost
    rw [hpos, memchr_eq_some _ _ hmid, if_pos hpost]
    rfl
  · rw [hpos, memchr_eq_none _ _ hpost, if_neg hpost, ← hpos]
    simp

/-- **One colon**: the node stands before it, or is the whole host if nothing does. -/
theorem split_one (hbr : bracketed (pre ++ 58 :: post) = none) (hpre : 58 ∉ pre)
    (hpost : 58 ∉ post) : split (pre ++ 58 :: post) =
      some (cstr (if pre = [] then pre ++ 58 :: post else pre), some (cstr post)) := by
  have hdrop : (pre ++ 58 :: post).drop (pre.length + 1) = post := by
    rw [List.drop_append]
    simp
  rw [split_of_bracketed_eq_none hbr, behindColon_append hpre, if_neg hpost, Option.bind_some]
  simp only [stringAt_c_str (s := pre ++ 58 :: post) (p := pre.length + 1) (by simp), hdrop]
  rfl

/-- **Several colons**: the whole host is the node, and from the first of them on the service. -/
theorem split_many (hbr : bracketed (pre ++ 58 :: post) = none) (hpre : 58 ∉ pre)
    (hpost : 58 ∈ post) : split (pre ++ 58 :: post) =
      some (cstr (pre ++ 58 :: post), some (58 :: cstr post)) := by
  rw [split_of_bracketed_eq_none hbr, behindColon_append hpre, if_pos hpost, Option.bind_some]
  simp only [stringAt_c_str (s := pre ++ 58 :: post) (p := pre.length) (by simp), List.drop_left,
    cstr_cons (c := 58) (by decide)]
  rfl

theorem colons_of_not_mem (h : 58 ∉ post) : colons pre post = [] := by
  induction post generalizing pre with
  | nil => rfl
  | cons b post ih =>
    have hb : b ≠ 58 := fun hb => h (hb ▸ List.mem_cons_self)
    rw [colons, if_neg fun hb' => hb hb'.1, ih fun hmem => h (List.mem_cons_of_mem b hmem)]
    rfl

/-- What `colons` goes through before it comes to a place. -/
theorem mem_colons {front : Bytes} {q : Bytes × Bytes} : q ∈ colons front host ↔
    ∃ pre post, host = pre ++ 58 :: post ∧ ¬Enclosed (front ++ pre) post ∧
      q = (front ++ pre, post) := by
  induction host generalizing front with
  | nil => simp [colons]
  | cons b host ih =>
    rw [colons, List.mem_append, ih]
    constructor
    · rintro (hq | ⟨pre, post, rfl, hout, rfl⟩)
      · split_ifs at hq with hb
        · obtain ⟨rfl, hout⟩ := hb
          exact ⟨[], host, rfl, by rwa [List.append_nil], by simpa using hq⟩
        · cases hq
      · exact ⟨b :: pre, post, rfl, by simpa using hout, by simp⟩
    · rintro ⟨pre, post, hhost, hout, rfl⟩
      cases pre with
      | nil =>
        obtain ⟨rfl, rfl⟩ := List.cons.inj hhost
        rw [List.append_nil] at hout ⊢
        rw [if_pos ⟨rfl, hout⟩]
        exact .inl List.mem_cons_self
      | cons b' pre =>
        obtain ⟨rfl, rfl⟩ := List.cons.inj hhost
        exact .inr ⟨pre, post, rfl, by simpa using hout, by simp⟩

theorem colons_one (front : Bytes) (hpre : 58 ∉ pre) (hpost : 58 ∉ post) :
    colons front (pre ++ 58 :: post) =
      if Enclosed (front ++ pre) post then [] else [(front ++ pre, post)] := by
  induction pre generalizing front with
  | nil =>
    rw [List.nil_append, colons, colons_of_not_mem hpost, List.append_nil, List.append_nil]
    by_cases hout : Enclosed front post
    · rw [if_neg fun h => h.2 hout, if_pos hout]
    · rw [if_pos ⟨rfl, hout⟩, if_neg hout]
  | cons b pre ih =>
    have hb : b ≠ 58 := fun hb => hpre (hb ▸ List.mem_cons_self)
    rw [List.cons_append, colons, if_neg fun h => hb h.1,
      ih (front ++ [b]) fun h => hpre (List.mem_cons_of_mem b h)]
    simp

theorem byColons_cases (host : Bytes) : byColons host = (host, none) ∨
    ∃ pre post, colons [] host = [(pre, post)] ∧ pre ≠ [] ∧ byColons host = (pre, some post) := by
  rw [byColons]
  split
  · next pre post hone =>
    by_cases hpre : pre ≠ []
    · exact .inr ⟨pre, post, hone, hpre, if_pos hpre⟩
    · exact .inl (if_neg hpre)
  · exact .inl rfl

/-- Behind the only colon there is no other. -/
theorem ne_of_colons (h : colons [] host = [(pre, post)]) (rest : Bytes) :
    cstr post ≠ 58 :: rest := by
  intro hcstr
  obtain ⟨post', rfl⟩ : ∃ post', post = 58 :: post' := by
    cases post with
    | nil => cases hcstr
    | cons b post =>
      rw [cstr, List.takeWhile_cons] at hcstr
      split_ifs at hcstr
      exact ⟨post, by rw [(List.cons.inj hcstr).1]⟩
  obtain ⟨p, q, rfl, hout, heq⟩ :=
    mem_colons.mp (h ▸ List.mem_cons_self : (pre, 58 :: post') ∈ colons [] host)
  obtain ⟨rfl, rfl⟩ := Prod.mk.inj heq
  have hnext : (pre ++ [58], post') ∈ colons [] (pre ++ 58 :: 58 :: post') := by
    refine mem_colons.mpr ⟨pre ++ [58], post', by simp, fun hin => hout ?_, rfl⟩
    -- the brackets around the next place are around this one, too
    refine ⟨?_, List.mem_cons_of_mem 58 hin.2⟩
    have hopen := hin.1
    rw [List.nil_append, List.reverse_append, List.reverse_singleton, List.singleton_append,
      List.takeWhile_cons_of_pos (by decide)] at hopen
    exact (List.mem_cons.mp hopen).resolve_left (by decide)
  rw [h, List.mem_singleton] at hnext
  simp at hnext

/-! ### Hosts with brackets at the front -/

/-- What `getaddrinfo` reads is what the notation means. -/
def Right (host : Bytes) : Prop :=
  split host = some (cstr (meaning host).1, (meaning host).2.map cstr)

/-- The node that the code finds is shorter than the whole host. -/
theorem cstr_ne_whole (x y : Bytes) : cstr x ≠ cstr (91 :: (x ++ y)) := by
  intro h
  rw [cstr_cons (by decide)] at h
  have hlen := length_cstr_le_append x y
  rw [h, List.length_cons] at hlen
  omega

theorem right_of_bracketed (h : bracketed host = some (x, rest)) :
    Right host ↔ rest = [] ∨ rest.head? = some 58 := by
  rw [Right, split_bracketed h]
  by_cases hnil : rest = []
  · subst hnil
    rw [meaning, h]
    simp
  · by_cases hcolon : rest.head? = some 58
    · obtain ⟨s, rfl⟩ : ∃ s, rest = 58 :: s := List.head?_eq_some_iff.mp hcolon
      rw [meaning, h]
      simp
    · have hmeaning : meaning host = byColons host := by
        rw [meaning, h]
        split
        · next hx => exact absurd (Prod.mk.inj (Option.some.inj hx)).2 hnil
        · next s hx =>
          exact absurd (by rw [(Prod.mk.inj (Option.some.inj hx)).2, List.head?_cons]) hcolon
        · rfl
      rw [hmeaning, if_neg hcolon]
      refine iff_of_false (fun hright => ?_) (not_or.mpr ⟨hnil, hcolon⟩)
      obtain ⟨hnode, hservice⟩ := Prod.mk.inj (Option.some.inj hright)
      rcases byColons_cases host with hby | ⟨pre, post, -, -, hby⟩
      · rw [hby, (eq_of_bracketed h).1] at hnode
        exact cstr_ne_whole x (93 :: rest) hnode
      · rw [hby] at hservice
        cases hservice

/-! ### Other hosts -/

/-- A host with one colon has one place to be split at. -/
theorem only_colon (hpre : 58 ∉ pre) (P : Bytes → Bytes → Prop) :
    (∃ pre' post', pre ++ 58 :: post = pre' ++ 58 :: post' ∧ pre' ≠ [] ∧ 58 ∉ pre' ∧
      58 ∉ post' ∧ ¬P pre' post') ↔ pre ≠ [] ∧ 58 ∉ post ∧ ¬P pre post := by
  constructor
  · rintro ⟨pre', post', hsplit, hne, hpre', hpost', hout⟩
    obtain ⟨rfl, -, rfl⟩ := (List.append_cons_inj_of_notMem hpre' hpost').mp hsplit.symm
    exact ⟨hne, hpost', hout⟩
  · rintro ⟨hne, hpost, hout⟩
    exact ⟨pre, post, rfl, hne, hpre, hpost, hout⟩

theorem right_of_none (h : bracketed host = none) : Right host ↔ 58 ∉ host ∨
    ∃ pre post, host = pre ++ 58 :: post ∧ pre ≠ [] ∧ 58 ∉ pre ∧ 58 ∉ post ∧
      ¬Enclosed pre post := by
  have hmeaning : meaning host = byColons host := by rw [meaning, h]
  rw [Right, hmeaning]
  by_cases hhost : 58 ∈ host
  · obtain ⟨pre, post, rfl, hpre⟩ := List.eq_append_cons_of_mem hhost
    rw [or_iff_right (not_not.mpr hhost), only_colon hpre Enclosed]
    by_cases hpost : 58 ∈ post
    · -- the service begins with a colon
      rw [split_many h hpre hpost]
      refine iff_of_false (fun hright => ?_) fun hone => hone.2.1 hpost
      obtain ⟨-, hservice⟩ := Prod.mk.inj (Option.some.inj hright)
      rcases byColons_cases (pre ++ 58 :: post) with hby | ⟨p, q, hcolons, -, hby⟩
      · rw [hby] at hservice
        cases hservice
      · rw [hby] at hservice
        exact ne_of_colons hcolons _ (Option.some.inj hservice).symm
    · rw [split_one h hpre hpost, byColons, colons_one [] hpre hpost, List.nil_append]
      by_cases hout : Enclosed pre post
      · rw [if_pos hout]
        exact iff_of_false (by simp) fun hone => hone.2.2 hout
      · rw [if_neg hout]
        by_cases hnil : pre = []
        · exact iff_of_false (by simp [hnil]) fun hone => hone.1 hnil
        · exact iff_of_true (by simp [hnil]) ⟨hnil, hpost, hout⟩
  · rw [split_of_not_mem h hhost, byColons, colons_of_not_mem hhost]
    exact iff_of_true rfl (.inl hhost)

/-- Nothing is read that is not part of the string. -/
theorem split_isSome (host : Bytes) : (split host).isSome = true := by
  cases h : bracketed host with
  | some q => rw [split_bracketed h]; rfl
  | none =>
    by_cases hhost : 58 ∈ host
    · obtain ⟨pre, post, rfl, hpre⟩ := List.eq_append_cons_of_mem hhost
      by_cases hpost : 58 ∈ post
      · rw [split_many h hpre hpost]; rfl
      · rw [split_one h hpre hpost]; rfl
    · rw [split_of_not_mem h hhost]; rfl

/-- **Where the splitting is right.** -/
theorem split_iff (host : Bytes) : Right host ↔ Plain host := by
  rw [Plain]
  cases h : bracketed host with
  | some q => exact right_of_bracketed h
  | none => exact right_of_none h

/-- A bare IPv6 address: the service is "::1". -/
theorem split_bare : ¬∀ host, Right host := fun h => by
  have hright := h (chars "fe80::1")
  rw [Right] at hright
  revert hright
  decide

example : split (chars "[fe80::1]:80") = some (chars "fe80::1", some (chars "80")) := by decide

end LimWebserver.AddressLookup
