import LimWebserver.Net.Http.Params
import Mathlib.Data.List.DropRight

namespace LimWebserver.StringUtil

open Http

/-!
# Base — `StringUtil::Trim`, `TrimLeft` and `TrimRight`

Each function finds the ends of its substring by itself. `TrimRight` takes the position of the last
character that is kept for the length of what is kept.

* `find_first_not_of`, `find_last_not_of` — the searches; none is `npos`;
* `Trim`, `TrimLeft`, `TrimRight` — the functions;
* `TrimLeft_eq`, `TrimRight_eq`, `Trim_eq` — what they return;
* `Law` — what they are to be; `trim_iff` — exactly the strings for which they are.
-/

variable (str delimit : Bytes)

/-- `str.find_first_not_of(delimit)` -/
def find_first_not_of : Option Nat := str.findIdx? (· ∉ delimit)

/-- `str.find_last_not_of(delimit)` -/
def find_last_not_of : Option Nat :=
  (str.reverse.findIdx? (· ∉ delimit)).map fun k => str.length - 1 - k

def npos : Nat := 2 ^ 64 - 1

def Trim : Bytes :=
  match find_first_not_of str delimit with
  | none => []
  | some first =>
    let last := (find_last_not_of str delimit).getD npos
    substr str first (last - first + 1)

def TrimLeft : Bytes :=
  match find_first_not_of str delimit with
  | none => []
  | some first => str.drop first

def TrimRight : Bytes :=
  match find_last_not_of str delimit with
  | none => []
  | some last => substr str 0 last

/-- **What the three are to be.** -/
structure Law : Prop where
  left : ∃ l, str = l ++ TrimLeft str delimit ∧ ∀ b ∈ l, b ∈ delimit
  right : ∃ r, str = TrimRight str delimit ++ r ∧ ∀ b ∈ r, b ∈ delimit
  begins : ∀ b ∈ (TrimLeft str delimit).head?, b ∉ delimit
  ends : ∀ b ∈ (TrimRight str delimit).getLast?, b ∉ delimit
  left_right : Trim str delimit = TrimLeft (TrimRight str delimit) delimit
  right_left : Trim str delimit = TrimRight (TrimLeft str delimit) delimit
  idem : Trim (Trim str delimit) delimit = Trim str delimit
  idem_left : TrimLeft (TrimLeft str delimit) delimit = TrimLeft str delimit
  idem_right : TrimRight (TrimRight str delimit) delimit = TrimRight str delimit

/-! ### The searches -/

variable {str delimit} {pre post : Bytes} {c : UInt8}

/-- Only delimiters, or a first character that is none. -/
theorem first_cases (str delimit : Bytes) : (∀ b ∈ str, b ∈ delimit) ∨
    ∃ pre c post, str = pre ++ c :: post ∧ (∀ b ∈ pre, b ∈ delimit) ∧ c ∉ delimit := by
  induction str with
  | nil => exact .inl (List.forall_mem_nil _)
  | cons b str ih =>
    by_cases hb : b ∈ delimit
    · rcases ih with h | ⟨pre, c, post, rfl, hpre, hc⟩
      · exact .inl (List.forall_mem_cons.mpr ⟨hb, h⟩)
      · exact .inr ⟨b :: pre, c, post, rfl, List.forall_mem_cons.mpr ⟨hb, hpre⟩, hc⟩
    · exact .inr ⟨[], b, str, rfl, List.forall_mem_nil _, hb⟩

/-- Only delimiters, or a last character that is none. -/
theorem last_cases (str delimit : Bytes) : (∀ b ∈ str, b ∈ delimit) ∨
    ∃ pre c post, str = pre ++ c :: post ∧ c ∉ delimit ∧ ∀ b ∈ post, b ∈ delimit := by
  rcases first_cases str.reverse delimit with h | ⟨pre, c, post, hstr, hpre, hc⟩
  · exact .inl fun b hb => h b (List.mem_reverse.mpr hb)
  · refine .inr ⟨post.reverse, c, pre.reverse, ?_, hc, fun b hb => hpre b (List.mem_reverse.mp hb)⟩
    rw [← List.reverse_reverse str, hstr]
    simp

theorem findIdx?_eq_none (h : ∀ b ∈ str, b ∈ delimit) : str.findIdx? (· ∉ delimit) = none :=
  List.findIdx?_eq_none_iff.mpr fun b hb => decide_eq_false (not_not_intro (h b hb))

theorem find_first_not_of_append (hpre : ∀ b ∈ pre, b ∈ delimit) (hc : c ∉ delimit) :
    find_first_not_of (pre ++ c :: post) delimit = some pre.length := by
  rw [find_first_not_of, List.findIdx?_append, findIdx?_eq_none hpre, Option.none_or,
    List.findIdx?_cons, if_pos (decide_eq_true hc)]
  simp

theorem find_last_not_of_append (hc : c ∉ delimit) (hpost : ∀ b ∈ post, b ∈ delimit) :
    find_last_not_of (pre ++ c :: post) delimit = some pre.length := by
  have hrev : (pre ++ c :: post).reverse = post.reverse ++ c :: pre.reverse := by simp
  have hfirst : find_first_not_of (post.reverse ++ c :: pre.reverse) delimit =
      some post.reverse.length :=
    find_first_not_of_append (fun b hb => hpost b (List.mem_reverse.mp hb)) hc
  rw [find_first_not_of, List.length_reverse] at hfirst
  rw [find_last_not_of, hrev, hfirst, Option.map_some, List.length_append, List.length_cons]
  exact congrArg some (by omega)

/-! ### What is returned -/

theorem TrimLeft_of_delimiters (h : ∀ b ∈ str, b ∈ delimit) : TrimLeft str delimit = [] := by
  rw [TrimLeft, find_first_not_of, findIdx?_eq_none h]

theorem TrimRight_of_delimiters (h : ∀ b ∈ str, b ∈ delimit) : TrimRight str delimit = [] := by
  rw [TrimRight, find_last_not_of, findIdx?_eq_none fun b hb => h b (List.mem_reverse.mp hb)]
  rfl

theorem Trim_of_delimiters (h : ∀ b ∈ str, b ∈ delimit) : Trim str delimit = [] := by
  rw [Trim, find_first_not_of, findIdx?_eq_none h]

theorem TrimLeft_append (hpre : ∀ b ∈ pre, b ∈ delimit) (hc : c ∉ delimit) :
    TrimLeft (pre ++ c :: post) delimit = c :: post := by
  rw [TrimLeft, find_first_not_of_append hpre hc]
  exact List.drop_left

/-- The last character that is no delimiter gets lost. -/
theorem TrimRight_append (hc : c ∉ delimit) (hpost : ∀ b ∈ post, b ∈ delimit) :
    TrimRight (pre ++ c :: post) delimit = pre := by
  rw [TrimRight, find_last_not_of_append hc hpost]
  exact List.take_left

theorem TrimLeft_eq (str delimit : Bytes) : TrimLeft str delimit = str.dropWhile (· ∈ delimit) := by
  rcases first_cases str delimit with h | ⟨pre, c, post, rfl, hpre, hc⟩
  · rw [TrimLeft_of_delimiters h, eq_comm, List.dropWhile_eq_nil_iff]
    exact fun b hb => decide_eq_true (h b hb)
  · have hdrop : ∀ b ∈ pre, decide (b ∈ delimit) = true := fun b hb => decide_eq_true (hpre b hb)
    rw [TrimLeft_append hpre hc, List.dropWhile_append_of_pos hdrop,
      List.dropWhile_cons_of_neg (by simpa using hc)]

theorem rdropWhile_append (hc : c ∉ delimit) (hpost : ∀ b ∈ post, b ∈ delimit) :
    (pre ++ c :: post).rdropWhile (· ∈ delimit) = pre ++ [c] := by
  have hrev : (pre ++ c :: post).reverse = post.reverse ++ c :: pre.reverse := by simp
  have hdrop : ∀ b ∈ post.reverse, decide (b ∈ delimit) = true := fun b hb =>
    decide_eq_true (hpost b (List.mem_reverse.mp hb))
  rw [List.rdropWhile, hrev, List.dropWhile_append_of_pos hdrop,
    List.dropWhile_cons_of_neg (by simpa using hc), List.reverse_cons, List.reverse_reverse]

/-- What is in front of the last character that should be kept. -/
theorem TrimRight_eq (str delimit : Bytes) :
    TrimRight str delimit = (str.rdropWhile (· ∈ delimit)).dropLast := by
  rcases last_cases str delimit with h | ⟨pre, c, post, rfl, hc, hpost⟩
  · have hnil : str.rdropWhile (· ∈ delimit) = [] :=
      List.rdropWhile_eq_nil_iff.mpr fun b hb => decide_eq_true (h b hb)
    rw [TrimRight_of_delimiters h, hnil, List.dropLast_nil]
  · rw [TrimRight_append hc hpost, rdropWhile_append hc hpost, List.dropLast_concat]

/-- `Trim` leaves out what is to be left out at both ends. -/
theorem Trim_eq (str delimit : Bytes) :
    Trim str delimit = (str.dropWhile (· ∈ delimit)).rdropWhile (· ∈ delimit) := by
  rw [← TrimLeft_eq]
  rcases first_cases str delimit with h | ⟨pre, c, post, rfl, hpre, hc⟩
  · rw [Trim_of_delimiters h, TrimLeft_of_delimiters h, List.rdropWhile_nil]
  · rw [TrimLeft_append hpre hc, Trim, find_first_not_of_append hpre hc]
    rcases last_cases (c :: post) delimit with h | ⟨f, c', r, hkept, hc', hr⟩
    · exact absurd (h c List.mem_cons_self) hc
    · have hassoc : pre ++ (f ++ c' :: r) = (pre ++ f) ++ c' :: r := (List.append_assoc ..).symm
      have hcount : (pre ++ f).length - pre.length + 1 = (f ++ [c']).length := by simp
      have hsplit : f ++ c' :: r = (f ++ [c']) ++ r := by simp
      rw [hkept, rdropWhile_append hc' hr, hassoc, find_last_not_of_append hc' hr]
      show substr _ _ ((pre ++ f).length - pre.length + 1) = _
      rw [substr, hcount, List.append_assoc, List.drop_left, hsplit, List.take_left]

/-- So cookies are trimmed as they should be. -/
theorem trim_eq_Trim (str : Bytes) : trim str = Trim str (chars " \t\r\n") := by
  rw [Trim_eq]
  rfl

/-! ### The law -/

/-- A string with a character that is kept is cut too short. -/
theorem not_law_of_mem (hc : c ∈ str) (hkept : c ∉ delimit) : ¬Law str delimit := by
  rintro ⟨-, ⟨r, hr, hdelimiters⟩, -⟩
  rcases last_cases str delimit with h | ⟨pre, c', post, rfl, hc', hpost⟩
  · exact hkept (h c hc)
  · rw [TrimRight_append hc' hpost, List.append_cancel_left_eq] at hr
    exact hc' (hdelimiters c' (hr ▸ List.mem_cons_self))

/-- **The strings that are trimmed as they are to be.** -/
theorem trim_iff (str delimit : Bytes) : Law str delimit ↔ ∀ b ∈ str, b ∈ delimit := by
  constructor
  · intro h b hb
    by_contra hkept
    exact not_law_of_mem hb hkept h
  · intro h
    have hnil : ∀ b ∈ ([] : Bytes), b ∈ delimit := List.forall_mem_nil _
    have hleft := TrimLeft_of_delimiters h
    have hright := TrimRight_of_delimiters h
    have hboth := Trim_of_delimiters h
    exact
      { left := ⟨str, by rw [hleft, List.append_nil], h⟩
        right := ⟨str, by rw [hright, List.nil_append], h⟩
        begins := by rw [hleft]; exact nofun
        ends := by rw [hright]; exact nofun
        left_right := by rw [hboth, hright, TrimLeft_of_delimiters hnil]
        right_left := by rw [hboth, hleft, TrimRight_of_delimiters hnil]
        idem := by rw [hboth, Trim_of_delimiters hnil]
        idem_left := by rw [hleft, TrimLeft_of_delimiters hnil]
        idem_right := by rw [hright, TrimRight_of_delimiters hnil] }

/-- "a " becomes the empty string. -/
theorem trim_letter : ¬∀ str delimit : Bytes, Law str delimit := fun h =>
  not_law_of_mem (List.mem_cons_self : 97 ∈ chars "a ") (by decide) (h _ (chars " \t\r\n"))

end LimWebserver.StringUtil
