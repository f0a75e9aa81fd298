import LimWebserver.Lib.Lines
import LimWebserver.Lib.Pieces
import LimWebserver.Net.Http.Headers

namespace LimWebserver.Http

open Lib.Lines

/-!
# Http — messages as their receiver reads them

* `printed`, `number` — a number in decimal digits, and back;
* `field`, `values` — the name and the value of a header line, and the values of one name;
* `Framed`, `FramedRequest` — what a receiver needs to find the end of a message;
* `field_line` — reading back a line that has been made of a name and a value.
-/

/-- `os << n` of an unsigned number. -/
def printed (n : Nat) : Bytes := (Nat.toDigits 10 n).map fun c => c.toNat.toUInt8

def isDigit (b : UInt8) : Bool := 48 ≤ b ∧ b ≤ 57

/-- The number that a row of digits denotes. -/
def number (text : Bytes) : Option Nat :=
  if text ≠ [] ∧ text.all isDigit then
    some (text.foldl (fun n b => 10 * n + (b.toNat - 48)) 0)
  else none

def isBlank (b : UInt8) : Bool := b = 32 ∨ b = 9

/-- A text without the blanks around it. -/
def strip (text : Bytes) : Bytes :=
  ((text.dropWhile isBlank).reverse.dropWhile isBlank).reverse

/-- The name of a header line, in small letters, and its value. A line without a colon has none. -/
def field (line : Bytes) : Option (Bytes × Bytes) :=
  if 58 ∈ line then
    some ((line.takeWhile (· ≠ 58)).map tolower, strip (line.dropWhile (· ≠ 58)).tail)
  else none

/-- The values of the header lines with a name, which is given in small letters. -/
def values (name : Bytes) (ls : List Bytes) : List Bytes :=
  ls.filterMap fun line => (field line).bind fun f => if f.1 = name then some f.2 else none

/-- **A framed response.** Behind its start line there is one `connection` header, which says
    `close`, one `content-length` header with the length of the body, an empty line and the body. -/
def Framed (text : Bytes) (close : Bool) (body : Bytes) : Prop :=
  ∃ start ls, head 13 10 [] text = some (start :: ls, body) ∧
    values (chars "connection") ls = [if close then chars "close" else chars "keep-alive"] ∧
    ∃ v, values (chars "content-length") ls = [v] ∧ number v = some body.length

/-- **A framed request.** One `connection` header, and at most one `content-length` header. -/
def FramedRequest (text : Bytes) : Prop :=
  ∃ start ls body, head 13 10 [] text = some (start :: ls, body) ∧
    (values (chars "connection") ls).length = 1 ∧ (values (chars "content-length") ls).length ≤ 1

/-! ### Numbers -/

theorem digit_of_mem_printed {n : Nat} {b : UInt8} (h : b ∈ printed n) : 48 ≤ b ∧ b ≤ 57 := by
  obtain ⟨c, hc, rfl⟩ := List.mem_map.mp h
  have hdigit := Nat.isDigit_of_mem_toDigits (by decide) (by decide) hc
  simp only [Char.isDigit, ge_iff_le, Bool.and_eq_true, decide_eq_true_eq] at hdigit
  obtain ⟨hlow, hhigh⟩ := hdigit
  have hlow' : 48 ≤ c.toNat := hlow
  have hhigh' : c.toNat ≤ 57 := hhigh
  constructor
  · rw [UInt8.le_iff_toNat_le, Nat.toUInt8, UInt8.toNat_ofNat', Nat.mod_eq_of_lt (by omega)]
    exact hlow'
  · rw [UInt8.le_iff_toNat_le, Nat.toUInt8, UInt8.toNat_ofNat', Nat.mod_eq_of_lt (by omega)]
    exact hhigh'

theorem printed_ne_nil (n : Nat) : printed n ≠ [] := by
  rw [printed, ne_eq, List.map_eq_nil_iff]
  exact Nat.toDigits_ne_nil

/-- **A printed number is read back.** -/
theorem number_printed (n : Nat) : number (printed n) = some n := by
  have hfold : ∀ (cs : List Char), (∀ c ∈ cs, c.toNat < 256) → ∀ k,
      (cs.map fun c => c.toNat.toUInt8).foldl (fun n b => 10 * n + (b.toNat - 48)) k =
        Nat.ofDigitChars 10 cs k := by
    intro cs hcs
    induction cs with
    | nil => intro k; rw [Nat.ofDigitChars_nil]; rfl
    | cons c cs ih =>
      intro k
      have hc : c.toNat.toUInt8.toNat = c.toNat := by
        rw [Nat.toUInt8, UInt8.toNat_ofNat', Nat.mod_eq_of_lt (hcs c List.mem_cons_self)]
      rw [List.map_cons, List.foldl_cons, ih fun c hc => hcs c (List.mem_cons_of_mem _ hc), hc,
        Nat.ofDigitChars_cons]
      rfl
  have hsmall : ∀ c ∈ Nat.toDigits 10 n, c.toNat < 256 := by
    intro c hc
    have hdigit := Nat.isDigit_of_mem_toDigits (by decide) (by decide) hc
    simp only [Char.isDigit, ge_iff_le, Bool.and_eq_true, decide_eq_true_eq] at hdigit
    have hhigh : c.toNat ≤ 57 := hdigit.2
    omega
  have hdigits : (printed n).all isDigit = true := by
    rw [List.all_eq_true]
    intro b hb
    simpa [isDigit] using digit_of_mem_printed hb
  rw [number, if_pos ⟨printed_ne_nil n, hdigits⟩, printed, hfold _ hsmall,
    Nat.ofDigitChars_ten_toDigits]

example : printed 1024 = chars "1024" := by decide

theorem printed_injective : Function.Injective printed := fun n n' h =>
  Option.some.inj (by rw [← number_printed n, ← number_printed n', h])

theorem length_printed_le {n k : Nat} (hk : 0 < k) (hn : n < 10 ^ k) : (printed n).length ≤ k := by
  rw [printed, List.length_map]
  exact (Nat.length_toDigits_le_iff (by decide) hk).mpr hn

/-! ### Header lines -/

section

variable {name key val line : Bytes} {ls ls' : List Bytes}

@[simp] theorem values_nil : values name [] = [] := rfl

@[simp] theorem values_append : values name (ls ++ ls') = values name ls ++ values name ls' :=
  List.filterMap_append

theorem values_cons : values name (line :: ls) = values name [line] ++ values name ls := by
  rw [← values_append, List.singleton_append]

/-- A text without blanks. -/
theorem strip_eq {text : Bytes} (h : ∀ b ∈ text, isBlank b = false) : strip text = text := by
  have hdrop : ∀ text : Bytes, (∀ b ∈ text, isBlank b = false) →
      text.dropWhile isBlank = text := by
    intro text h
    cases text with
    | nil => rfl
    | cons b text =>
      exact List.dropWhile_cons_of_neg (by rw [h b List.mem_cons_self]; exact Bool.false_ne_true)
  rw [strip, hdrop text h, hdrop _ fun b hb => h b (List.mem_reverse.mp hb), List.reverse_reverse]

theorem strip_printed (n : Nat) : strip (printed n) = printed n := by
  apply strip_eq
  intro b hb
  obtain ⟨hlow, -⟩ := digit_of_mem_printed hb
  simp only [isBlank, decide_eq_false_iff_not, not_or]
  constructor
  · intro hblank
    exact absurd (hblank ▸ hlow) (by decide)
  · intro hblank
    exact absurd (hblank ▸ hlow) (by decide)

/-- **Reading back a header line.** -/
theorem field_line (hkey : 58 ∉ key) (val : Bytes) :
    field (key ++ chars ": " ++ val) = some (key.map tolower, strip val) := by
  have hline : key ++ chars ": " ++ val = key ++ 58 :: 32 :: val := by
    rw [List.append_assoc]
    rfl
  obtain ⟨htake, hdrop⟩ := Lib.Pieces.span_first hkey (32 :: val)
  have hmem : 58 ∈ key ++ 58 :: 32 :: val := List.mem_append_right key List.mem_cons_self
  rw [hline, field, if_pos hmem, htake, hdrop]
  rfl

/-- One header line with a name. -/
theorem values_line (hkey : 58 ∉ key) (val : Bytes) :
    values name [key ++ chars ": " ++ val] =
      if key.map tolower = name then [strip val] else [] := by
  rw [values, List.filterMap_cons, field_line hkey, Option.bind_some]
  by_cases hname : key.map tolower = name
  · rw [if_pos hname, if_pos hname]
    rfl
  · rw [if_neg hname, if_neg hname]
    rfl

end

end LimWebserver.Http
