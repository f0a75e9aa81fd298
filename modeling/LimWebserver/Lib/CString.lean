import Mathlib.Data.List.TakeWhile

namespace LimWebserver.Lib.CString

/-!
# Strings in memory

* `cstr` — a string as far as the zero at its end; `c_str` — a string with a zero behind it;
* `stringAt`, `memchr` — reading from memory, where not all positions can be read.
-/

/-- What is read of a string: what stands in front of the first zero. -/
def cstr (s : List UInt8) : List UInt8 := s.takeWhile (· ≠ 0)

/-- A string as it stands in memory. -/
def c_str (s : List UInt8) : List UInt8 := s ++ [0]

/-- The string that is read from a position on; none if the memory ends before it does. -/
def stringAt (mem : List UInt8) (p : Nat) : Option (List UInt8) :=
  if 0 ∈ mem.drop p then some (cstr (mem.drop p)) else none

/-- `memchr(mem + start, c, n)`: a position in memory, if any; none if not all can be read. -/
def memchr (mem : List UInt8) (start : Nat) (c : UInt8) (n : Nat) : Option (Option Nat) :=
  if start + n ≤ mem.length then
    some ((((mem.drop start).take n).findIdx? (· = c)).map (start + ·))
  else none

variable {s t : List UInt8} {c : UInt8}

theorem cstr_eq_self (h : 0 ∉ s) : cstr s = s := by
  rw [cstr, List.takeWhile_eq_self_iff]
  exact fun b hb => decide_eq_true fun hb0 => h (hb0 ▸ hb)

@[simp] theorem cstr_c_str (s : List UInt8) : cstr (c_str s) = cstr s := by
  induction s with
  | nil => simp [cstr, c_str]
  | cons b s ih =>
    rw [cstr, c_str, List.cons_append, List.takeWhile_cons, cstr, List.takeWhile_cons]
    exact congrArg (fun u => if decide (b ≠ 0) = true then b :: u else []) ih

theorem cstr_cons (h : c ≠ 0) : cstr (c :: s) = c :: cstr s := by simp [cstr, h]

theorem length_cstr_le_append (s t : List UInt8) : (cstr s).length ≤ (cstr (s ++ t)).length := by
  induction s with
  | nil => exact Nat.zero_le _
  | cons b s ih =>
    by_cases hb : b = 0
    · simp [cstr, hb]
    · rw [List.cons_append, cstr_cons hb, cstr_cons hb]
      exact Nat.succ_le_succ ih

theorem stringAt_c_str {p : Nat} (h : p ≤ s.length) :
    stringAt (c_str s) p = some (cstr (s.drop p)) := by
  have hdrop : (c_str s).drop p = c_str (s.drop p) := List.drop_append_of_le_length h
  rw [stringAt, hdrop, if_pos (by simp [c_str]), cstr_c_str]

/-- The character does not occur. -/
theorem memchr_eq_none (pre post : List UInt8) (h : c ∉ s) :
    memchr (pre ++ s ++ post) pre.length c s.length = some none := by
  rw [memchr, if_pos (by simp), List.append_assoc, List.drop_left, List.take_left]
  have hnone : s.findIdx? (· = c) = none :=
    List.findIdx?_eq_none_iff.mpr fun b hb => decide_eq_false fun hbc => h (hbc ▸ hb)
  rw [hnone, Option.map_none]

/-- The first one is found. -/
theorem memchr_eq_some (pre post : List UInt8) (h : c ∉ s) :
    memchr (pre ++ (s ++ c :: t) ++ post) pre.length c (s ++ c :: t).length =
      some (some (pre.length + s.length)) := by
  rw [memchr, if_pos (by simp), List.append_assoc, List.drop_left, List.take_left]
  have hnone : s.findIdx? (· = c) = none :=
    List.findIdx?_eq_none_iff.mpr fun b hb => decide_eq_false fun hbc => h (hbc ▸ hb)
  rw [List.findIdx?_append, hnone, List.findIdx?_cons, if_pos (decide_eq_true rfl)]
  simp

end LimWebserver.Lib.CString
