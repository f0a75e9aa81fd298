import LimWebserver.Lib.CString
import LimWebserver.Net.Address
import LimWebserver.Net.Http.Message

namespace LimWebserver.IPAddress

open Http Lib.CString

/-!
# Net — the text of an address

`toString()` of both families asks `inet_ntop` for the text of an `AF_INET` address, so that of an
IPv6 address the first four bytes are seen.

* `AddressFamily`, `Presents` — `inet_ntop`, and what is known of it;
* `snprintf`, `IPv4Address.toString`, `IPv6Address.toString` — the functions;
* `append_sep_inj` — a text and a number are told apart behind the last separator;
* `toString_iff` — the addresses with texts of their own.
-/

inductive AddressFamily where
  | AF_INET
  | AF_INET6
  deriving DecidableEq, Repr

/-- How many bytes an address of the family has. -/
def AddressFamily.size : AddressFamily → Nat
  | .AF_INET => 4
  | .AF_INET6 => 16

/-- The texts of the addresses of a family: no two are the same, and none is too long. -/
structure Presents (text : List (BitVec 8) → Bytes) (size maxLength : Nat) : Prop where
  inj : ∀ s s', s.length = size → s'.length = size → text s = text s' → s = s'
  length_le : ∀ s, s.length = size → (text s).length ≤ maxLength
  not_mem : ∀ s, s.length = size → 0 ∉ text s

/-- `snprintf(buffer, size, ...)`: what the buffer holds of a text. -/
def snprintf (size : Nat) (text : Bytes) : Bytes := c_str (text.take (size - 1))

variable (text : AddressFamily → List (BitVec 8) → Bytes)

/-- `inet_ntop(af, src, dst, size)`: what `dst` holds, or none where it does not hold the text. -/
def inet_ntop (af : AddressFamily) (src : List (BitVec 8)) (size : Nat) : Option Bytes :=
  let presentation := text af (src.take af.size)
  if presentation.length < size then some (c_str presentation) else none

namespace IPv4Address

variable (a : IPv4Address)

/-- The bytes at `sin_addr`. -/
def sin_addr : List (BitVec 8) := (List.range 4).map fun i => a.s_addr.extractLsb' (8 * i) 8

/-- What `"%s:%u"` stands for. -/
def formatted : Option Bytes := do
  let ipv4Str ← inet_ntop text .AF_INET a.sin_addr 16
  let port := htons a.sin_port
  return cstr ipv4Str ++ chars ":" ++ printed port.toNat

/-- `toString()`, with `INET_ADDRSTRLEN + 6` bytes for the text. -/
def toString : Option Bytes := (formatted text a).map fun t => cstr (snprintf 22 t)

end IPv4Address

namespace IPv6Address

variable (a : IPv6Address)

/-- What `"[%s]:%u"` stands for. -/
def formatted : Option Bytes := do
  let ipv6Str ← inet_ntop text .AF_INET a.s6_addr.toList 46
  let port := htons a.sin6_port
  return chars "[" ++ cstr ipv6Str ++ chars "]:" ++ printed port.toNat

/-- `toString()`, with `INET6_ADDRSTRLEN + 8` bytes for the text. -/
def toString : Option Bytes := (formatted text a).map fun t => cstr (snprintf 54 t)

end IPv6Address

namespace Pair

/-- Nothing is cut off, and two different addresses have different texts. -/
def Told : Pair → Prop
  | .ipv4 a b =>
    (∀ c ∈ [a, b], ∃ t, c.formatted text = some t ∧ t.length < 22) ∧
      (a ≠ b → a.toString text ≠ b.toString text)
  | .ipv6 a b =>
    (∀ c ∈ [a, b], ∃ t, c.formatted text = some t ∧ t.length < 54) ∧
      (a ≠ b → a.toString text ≠ b.toString text)

/-- IPv6 addresses that differ do so in the port or in the first four bytes. -/
def Apart : Pair → Prop
  | .ipv4 _ _ => True
  | .ipv6 a b =>
    a ≠ b → a.sin6_port ≠ b.sin6_port ∨ a.s6_addr.toList.take 4 ≠ b.s6_addr.toList.take 4

end Pair

/-! ### Texts -/

/-- What stands behind the last separator, and what stands in front of it. -/
theorem append_sep_inj {α : Type} {sep : α} {x x' z z' : List α} (hz : sep ∉ z) (hz' : sep ∉ z') :
    x ++ sep :: z = x' ++ sep :: z' ↔ x = x' ∧ z = z' := by
  constructor
  · intro h
    rcases List.append_eq_append_iff.mp h with ⟨c, hx, hc⟩ | ⟨c, hx, hc⟩
    · cases c with
      | nil => exact ⟨by rw [hx, List.append_nil], (List.cons.inj hc).2⟩
      | cons y c =>
        refine absurd ?_ hz
        rw [(List.cons.inj hc).2]
        exact List.mem_append_right c List.mem_cons_self
    · cases c with
      | nil => exact ⟨by rw [hx, List.append_nil], (List.cons.inj hc).2.symm⟩
      | cons y c =>
        refine absurd ?_ hz'
        rw [(List.cons.inj hc).2]
        exact List.mem_append_right c List.mem_cons_self
  · rintro ⟨rfl, rfl⟩
    rfl

/-- A text that fits is read back. -/
theorem cstr_snprintf {t : Bytes} {size : Nat} (hlen : t.length < size) (h : 0 ∉ t) :
    cstr (snprintf size t) = t := by
  rw [snprintf, List.take_of_length_le (by omega), cstr_c_str, cstr_eq_self h]

theorem length_printed_port (port : BitVec 16) : (printed port.toNat).length ≤ 5 :=
  length_printed_le (by decide) (Nat.lt_trans port.isLt (by decide))

theorem not_mem_printed_of {b : UInt8} (hb : b < 48 ∨ 57 < b) (n : Nat) : b ∉ printed n := by
  intro h
  obtain ⟨hlow, hhigh⟩ := digit_of_mem_printed h
  rcases hb with hb | hb
  · exact absurd hlow (UInt8.not_le.mpr hb)
  · exact absurd hhigh (UInt8.not_le.mpr hb)

/-- The port is read off behind the last colon. -/
theorem append_port_inj {x x' : Bytes} {port port' : BitVec 16} :
    x ++ 58 :: printed (htons port).toNat = x' ++ 58 :: printed (htons port').toNat ↔
      x = x' ∧ port = port' := by
  rw [append_sep_inj (not_mem_printed_of (.inr (by decide)) _)
    (not_mem_printed_of (.inr (by decide)) _), printed_injective.eq_iff, BitVec.toNat_inj]
  refine and_congr_right fun _ => ⟨fun h => ?_, congrArg htons⟩
  rw [← htons_htons port, ← htons_htons port', h]

variable {text} (h : Presents (text .AF_INET) 4 15)

include h

theorem inet_ntop_eq {src : List (BitVec 8)} {size : Nat} (hsrc : 4 ≤ src.length)
    (hsize : 15 < size) :
    inet_ntop text .AF_INET src size = some (c_str (text .AF_INET (src.take 4))) := by
  have hlen := h.length_le (src.take 4) (by rw [List.length_take, Nat.min_eq_left hsrc])
  rw [inet_ntop]
  exact if_pos (by exact Nat.lt_of_le_of_lt hlen hsize)

namespace IPv4Address

variable (a b : IPv4Address)

omit h in
theorem sin_addr_inj : a.sin_addr = b.sin_addr ↔ a.s_addr = b.s_addr := by
  refine ⟨fun hab => BitVec.eq_of_getLsbD_eq fun i hi => ?_, fun hab => ?_⟩
  swap
  · rw [sin_addr, sin_addr, hab]
  have hbyte := (List.map_inj_left.mp hab) (i / 8) (List.mem_range.mpr (by omega))
  have hbit := congrArg (fun x => x.getLsbD (i % 8)) hbyte
  simp only [BitVec.getLsbD_extractLsb', decide_eq_true (Nat.mod_lt i (by decide : 0 < 8)),
    Bool.true_and, Nat.div_add_mod] at hbit
  exact hbit

theorem formatted_eq : formatted text a =
    some (text .AF_INET a.sin_addr ++ 58 :: printed (htons a.sin_port).toNat) := by
  have hlen : a.sin_addr.length = 4 := rfl
  have hnul := h.not_mem a.sin_addr hlen
  rw [formatted, inet_ntop_eq h (Nat.le_of_eq hlen.symm) (by decide),
    List.take_of_length_le (Nat.le_of_eq hlen)]
  simp [cstr_eq_self hnul, chars]

theorem length_formatted :
    (text .AF_INET a.sin_addr ++ 58 :: printed (htons a.sin_port).toNat).length < 22 := by
  have hlen := h.length_le a.sin_addr rfl
  have hport := length_printed_port (htons a.sin_port)
  rw [List.length_append, List.length_cons]
  omega

theorem toString_eq : a.toString text =
    some (text .AF_INET a.sin_addr ++ 58 :: printed (htons a.sin_port).toNat) := by
  have hnul : 0 ∉ text .AF_INET a.sin_addr ++ 58 :: printed (htons a.sin_port).toNat := by
    simp [h.not_mem a.sin_addr rfl, not_mem_printed_of (b := 0) (.inl (by decide))]
  rw [toString, formatted_eq h, Option.map_some, cstr_snprintf (length_formatted h a) hnul]

/-- The text has the address in front of the last colon and the port behind it. -/
theorem toString_inj : a.toString text = b.toString text ↔ a = b := by
  rw [toString_eq h, toString_eq h, Option.some.injEq, append_port_inj]
  constructor
  · rintro ⟨haddr, hport⟩
    have hsame := (sin_addr_inj a b).mp (h.inj _ _ rfl rfl haddr)
    cases a
    cases b
    congr
  · rintro rfl
    exact ⟨rfl, rfl⟩

end IPv4Address

namespace IPv6Address

variable (a b : IPv6Address)

theorem formatted_eq : formatted text a =
    some (91 :: text .AF_INET (a.s6_addr.toList.take 4) ++ [93] ++
      58 :: printed (htons a.sin6_port).toNat) := by
  have hlen : 4 ≤ a.s6_addr.toList.length := by simp
  have hnul := h.not_mem (a.s6_addr.toList.take 4) (by simp)
  rw [formatted, inet_ntop_eq h hlen (by decide)]
  simp [cstr_eq_self hnul, chars]

theorem length_formatted : (91 :: text .AF_INET (a.s6_addr.toList.take 4) ++ [93] ++
    58 :: printed (htons a.sin6_port).toNat).length < 54 := by
  have hlen := h.length_le (a.s6_addr.toList.take 4) (by simp)
  have hport := length_printed_port (htons a.sin6_port)
  simp only [List.length_append, List.length_cons, List.length_nil]
  omega

theorem toString_eq : a.toString text =
    some (91 :: text .AF_INET (a.s6_addr.toList.take 4) ++ [93] ++
      58 :: printed (htons a.sin6_port).toNat) := by
  have hnul : 0 ∉ 91 :: text .AF_INET (a.s6_addr.toList.take 4) ++ [93] ++
      58 :: printed (htons a.sin6_port).toNat := by
    simp [h.not_mem (a.s6_addr.toList.take 4) (by simp),
      not_mem_printed_of (b := 0) (.inl (by decide))]
  rw [toString, formatted_eq h, Option.map_some, cstr_snprintf (length_formatted h a) hnul]

/-- The text has the first four bytes and the port. -/
theorem toString_inj : a.toString text = b.toString text ↔
    a.s6_addr.toList.take 4 = b.s6_addr.toList.take 4 ∧ a.sin6_port = b.sin6_port := by
  rw [toString_eq h, toString_eq h, Option.some.injEq, append_port_inj, List.append_cancel_right_eq,
    List.cons.injEq, and_iff_right rfl]
  refine and_congr_left fun _ => ⟨h.inj _ _ (by simp) (by simp), fun hab => by rw [hab]⟩

end IPv6Address

/-- **The code's texts**: IPv6 addresses are told apart by four of their bytes. -/
theorem toString_iff (q : Pair) : q.Told text ↔ q.Apart := by
  cases q with
  | ipv4 a b =>
    refine iff_of_true ⟨fun c _ => ⟨_, c.formatted_eq h, c.length_formatted h⟩, ?_⟩ trivial
    exact fun hab => mt (IPv4Address.toString_inj h a b).mp hab
  | ipv6 a b =>
    refine (and_iff_right fun c _ => ⟨_, c.formatted_eq h, c.length_formatted h⟩).trans ?_
    rw [ne_eq (a.toString text), IPv6Address.toString_inj h, not_and_or, or_comm]
    exact Iff.rfl

omit h

/-! ### `inet_ntop` -/

/-- The numbers of four bytes, with dots between them. -/
def dotted : List (BitVec 8) → Bytes
  | [b₀, b₁, b₂, b₃] => printed b₀.toNat ++ 46 :: printed b₁.toNat ++ 46 :: printed b₂.toNat ++
      46 :: printed b₃.toNat
  | _ => []

theorem presents_dotted : Presents dotted 4 15 where
  inj s s' hs hs' h := by
    obtain ⟨b₀, b₁, b₂, b₃, rfl⟩ := List.length_eq_four.mp hs
    obtain ⟨c₀, c₁, c₂, c₃, rfl⟩ := List.length_eq_four.mp hs'
    have hdot : ∀ n, 46 ∉ printed n := not_mem_printed_of (.inl (by decide))
    rw [dotted, dotted, append_sep_inj (hdot _) (hdot _), append_sep_inj (hdot _) (hdot _),
      append_sep_inj (hdot _) (hdot _)] at h
    simp only [printed_injective.eq_iff, BitVec.toNat_inj] at h
    obtain ⟨⟨⟨rfl, rfl⟩, rfl⟩, rfl⟩ := h
    rfl
  length_le s hs := by
    obtain ⟨b₀, b₁, b₂, b₃, rfl⟩ := List.length_eq_four.mp hs
    have hlen : ∀ b : BitVec 8, (printed b.toNat).length ≤ 3 := fun b =>
      length_printed_le (by decide) (Nat.lt_trans b.isLt (by decide))
    have h₀ := hlen b₀
    have h₁ := hlen b₁
    have h₂ := hlen b₂
    have h₃ := hlen b₃
    simp only [dotted, List.length_append, List.length_cons]
    omega
  not_mem s hs := by
    obtain ⟨b₀, b₁, b₂, b₃, rfl⟩ := List.length_eq_four.mp hs
    have hzero : ∀ n, 0 ∉ printed n := not_mem_printed_of (.inl (by decide))
    simp [dotted, hzero]

def hexDigit (n : BitVec 4) : UInt8 := n.toNat.toUInt8 + if n.toNat < 10 then 48 else 87

/-- Bytes in hexadecimal digits. -/
def hexadecimal (s : List (BitVec 8)) : Bytes :=
  s.flatMap fun b => [hexDigit (b.extractLsb' 4 4), hexDigit (b.extractLsb' 0 4)]

theorem hexDigit_inj : ∀ n n' : BitVec 4, hexDigit n = hexDigit n' → n = n' := by decide

theorem hexadecimal_inj {s s' : List (BitVec 8)} (hlen : s.length = s'.length)
    (h : hexadecimal s = hexadecimal s') : s = s' := by
  have hsplit : ∀ b : BitVec 8, b.extractLsb' 4 4 ++ b.extractLsb' 0 4 = b := by decide +kernel
  induction s generalizing s' with
  | nil => exact (List.length_eq_zero_iff.mp hlen.symm).symm
  | cons b s ih =>
    cases s' with
    | nil => cases hlen
    | cons c s' =>
      obtain ⟨hhigh, hrest⟩ := List.cons.inj h
      obtain ⟨hlow, hrest⟩ := List.cons.inj hrest
      rw [ih (Nat.succ.inj hlen) hrest, ← hsplit b, ← hsplit c, hexDigit_inj _ _ hhigh,
        hexDigit_inj _ _ hlow]

theorem presents_hexadecimal : Presents hexadecimal 16 45 where
  inj s s' hs hs' h := hexadecimal_inj (hs.trans hs'.symm) h
  length_le s hs := by
    rw [hexadecimal, List.length_flatMap]
    simp [hs]
  not_mem s _ hmem := by
    have hpos : ∀ n : BitVec 4, 0 ≠ hexDigit n := by decide
    obtain ⟨b, -, hb⟩ := List.mem_flatMap.mp hmem
    simp [hpos] at hb

/-- The texts that are told apart; the code asks for those of four bytes only. -/
def usual : AddressFamily → List (BitVec 8) → Bytes
  | .AF_INET => dotted
  | .AF_INET6 => hexadecimal

/-- 127.0.0.1 with the ports 80 and 8080. -/
theorem toString_iff_usual :
    (Pair.ipv4 ⟨0x0100007F, 0x5000⟩ ⟨0x0100007F, 0x901F⟩).Told usual :=
  (toString_iff presents_dotted _).mpr trivial

/-- 2001:db8::1 and 2001:db8::2 with the port 80: both are "[32.1.13.184]:80". -/
theorem toString_documentation : ¬∀ text : AddressFamily → List (BitVec 8) → Bytes,
    Presents (text .AF_INET) 4 15 → Presents (text .AF_INET6) 16 45 → ∀ q : Pair, q.Told text :=
  fun h => (h usual presents_dotted presents_hexadecimal (.ipv6
    ⟨#v[0x20, 0x01, 0x0D, 0xB8, 0, 0, 0, 0, 0, 0, 0, 0, 0, 0, 0, 1], 0x5000⟩
    ⟨#v[0x20, 0x01, 0x0D, 0xB8, 0, 0, 0, 0, 0, 0, 0, 0, 0, 0, 0, 2], 0x5000⟩)).2
    (by decide) (by decide)

end LimWebserver.IPAddress
