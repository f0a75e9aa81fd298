import Mathlib.Data.List.Basic
import Mathlib.Data.List.Lex
import Mathlib.Data.UInt

namespace LimWebserver.AddressOrder

/-!
# Net — the order of addresses

`operator<` and `operator==` see of an address only the memory behind `getAddr()` and the length
`getAddrLen()`, which is the same for all addresses of a family, except for Unix addresses.

* `memcmp`, `Address`, `lt`, `eq` — the functions;
* `Address.key` — the bytes that count;
* `lt_iff`, `eq_iff` — the operators are the lexicographic order and the equality of these;
* `strict_total` — what this means for the operators;
* `UnixAddress.create`, `UnixAddress.create_lt_iff` — Unix addresses, which are ordered by name.
-/

/-- `memcmp(s1, s2, n)` of areas that are long enough. -/
def memcmp : Nat → List UInt8 → List UInt8 → Int
  | n + 1, x :: s1, y :: s2 => if x = y then memcmp n s1 s2 else (x.toNat : Int) - y.toNat
  | _, _, _ => 0

structure Address where
  /-- the memory from `getAddr()` on -/
  getAddr : List UInt8
  getAddrLen : Nat
  getAddrLen_le : getAddrLen ≤ getAddr.length

namespace Address

variable (a rhs : Address)

/-- `operator<` -/
def lt : Bool :=
  let minlen := min a.getAddrLen rhs.getAddrLen
  let result := memcmp minlen a.getAddr rhs.getAddr
  if result ≠ 0 then result < 0 else a.getAddrLen < rhs.getAddrLen

/-- `operator==` -/
def eq : Bool :=
  a.getAddrLen = rhs.getAddrLen ∧ memcmp a.getAddrLen a.getAddr rhs.getAddr = 0

/-- The bytes of an address, as numbers. -/
def key : List Nat := (a.getAddr.take a.getAddrLen).map UInt8.toNat

end Address

/-- `memcmp` looks at the first bytes only. -/
theorem memcmp_take {n k l : Nat} (hk : n ≤ k) (hl : n ≤ l) (s1 s2 : List UInt8) :
    memcmp n (s1.take k) (s2.take l) = memcmp n s1 s2 := by
  induction n generalizing k l s1 s2 with
  | zero => simp [memcmp]
  | succ n ih =>
    obtain ⟨k, rfl⟩ := Nat.exists_eq_add_of_lt (Nat.lt_of_succ_le hk)
    obtain ⟨l, rfl⟩ := Nat.exists_eq_add_of_lt (Nat.lt_of_succ_le hl)
    cases s1 with
    | nil => simp [memcmp]
    | cons x s1 =>
      cases s2 with
      | nil => simp [memcmp]
      | cons y s2 =>
        rw [List.take_succ_cons, List.take_succ_cons, memcmp, memcmp,
          ih (Nat.le_add_right n k) (Nat.le_add_right n l)]

/-- **The order of the code**: the first difference decides, and otherwise the length. -/
theorem memcmp_lex (s1 s2 : List UInt8) :
    (if memcmp (min s1.length s2.length) s1 s2 ≠ 0
      then memcmp (min s1.length s2.length) s1 s2 < 0 else s1.length < s2.length) ↔
      s1.map UInt8.toNat < s2.map UInt8.toNat := by
  induction s1 generalizing s2 with
  | nil =>
    cases s2 with
    | nil => simp [memcmp]
    | cons y s2 => simp [memcmp]
  | cons x s1 ih =>
    cases s2 with
    | nil => simp [memcmp]
    | cons y s2 =>
      rw [List.length_cons, List.length_cons, Nat.succ_min_succ, memcmp, List.map_cons,
        List.map_cons, List.cons_lt_cons_iff, Nat.succ_lt_succ_iff]
      by_cases hxy : x = y
      · -- the same byte: the rest decides
        rw [if_pos hxy, ih s2, hxy]
        simp
      · have hne : x.toNat ≠ y.toNat := fun h => hxy (UInt8.toNat_inj.mp h)
        rw [if_neg hxy, if_pos (by omega), or_iff_left fun h => hne h.1]
        omega

theorem memcmp_eq_zero {s1 s2 : List UInt8} (h : s1.length = s2.length) :
    memcmp s1.length s1 s2 = 0 ↔ s1 = s2 := by
  induction s1 generalizing s2 with
  | nil =>
    rw [List.length_nil] at h
    rw [List.length_eq_zero_iff.mp h.symm]
    simp [memcmp]
  | cons x s1 ih =>
    cases s2 with
    | nil => cases h
    | cons y s2 =>
      rw [List.length_cons, memcmp, List.cons.injEq]
      by_cases hxy : x = y
      · rw [if_pos hxy, ih (Nat.succ.inj h), and_iff_right hxy]
      · have hne : x.toNat ≠ y.toNat := fun h => hxy (UInt8.toNat_inj.mp h)
        rw [if_neg hxy]
        exact iff_of_false (by omega) fun h => hxy h.1

namespace Address

variable {a b c : Address}

theorem lt_iff : a.lt b = true ↔ a.key < b.key := by
  have hlen : ∀ c : Address, (c.getAddr.take c.getAddrLen).length = c.getAddrLen := fun c => by
    rw [List.length_take, Nat.min_eq_left c.getAddrLen_le]
  have hlex := memcmp_lex (a.getAddr.take a.getAddrLen) (b.getAddr.take b.getAddrLen)
  rw [hlen, hlen, memcmp_take (Nat.min_le_left _ _) (Nat.min_le_right _ _)] at hlex
  rw [lt, key, key, ← hlex]
  split_ifs
  · exact decide_eq_true_iff
  · exact decide_eq_true_iff

theorem eq_iff : a.eq b = true ↔ a.key = b.key := by
  have hlen : ∀ c : Address, (c.getAddr.take c.getAddrLen).length = c.getAddrLen := fun c => by
    rw [List.length_take, Nat.min_eq_left c.getAddrLen_le]
  have hinj : Function.Injective (List.map UInt8.toNat) :=
    List.map_injective_iff.mpr fun _ _ => UInt8.toNat_inj.mp
  rw [eq, decide_eq_true_iff, key, key, hinj.eq_iff]
  constructor
  · rintro ⟨hab, hcmp⟩
    rw [← memcmp_take (Nat.le_refl _) (Nat.le_of_eq hab)] at hcmp
    have hcmp' : memcmp (a.getAddr.take a.getAddrLen).length (a.getAddr.take a.getAddrLen)
        (b.getAddr.take b.getAddrLen) = 0 := by rwa [hlen]
    exact (memcmp_eq_zero (by rw [hlen, hlen, hab])).mp hcmp'
  · intro h
    have hab : a.getAddrLen = b.getAddrLen := by rw [← hlen a, ← hlen b, h]
    have hcmp := (memcmp_eq_zero (congrArg List.length h)).mpr h
    rw [hlen, memcmp_take (Nat.le_refl _) (Nat.le_of_eq hab)] at hcmp
    exact ⟨hab, hcmp⟩

theorem lt_eq_false : a.lt b = false ↔ ¬a.key < b.key := by rw [← lt_iff, Bool.not_eq_true]

theorem eq_eq_false : a.eq b = false ↔ a.key ≠ b.key := by rw [ne_eq, ← eq_iff, Bool.not_eq_true]

/-- **A strict total order**: no address is less than itself, `<` is transitive, and of two
    addresses one is less than the other or they are equal, and only one of these. -/
theorem strict_total : (∀ a : Address, a.lt a = false) ∧
    (∀ a b c : Address, a.lt b = true → b.lt c = true → a.lt c = true) ∧
    ∀ a b : Address, (a.lt b = true ∧ a.eq b = false ∧ b.lt a = false) ∨
      (a.lt b = false ∧ a.eq b = true ∧ b.lt a = false) ∨
      (a.lt b = false ∧ a.eq b = false ∧ b.lt a = true) := by
  simp only [lt_iff, eq_iff, lt_eq_false, eq_eq_false]
  refine ⟨fun a => lt_irrefl a.key, fun a b c => lt_trans, fun a b => ?_⟩
  rcases lt_trichotomy a.key b.key with h | h | h
  · exact .inl ⟨h, h.ne, h.asymm⟩
  · exact .inr (.inl ⟨h.not_lt, h, h.not_gt⟩)
  · exact .inr (.inr ⟨h.asymm, h.ne', h⟩)

end Address

/-! ### Unix addresses -/

namespace UnixAddress

/-- The part of `sun_path` that counts: an abstract name has no `\0` at its end. -/
def name (path : List UInt8) : List UInt8 := if path.head? = some 0 then path else path ++ [0]

/-- `UnixAddress(path)`: the two bytes of the family and `sun_path`; none for "path too long". -/
def create (path : List UInt8) : Option Address :=
  let m_length := (name path).length
  if h : m_length ≤ 108 then
    some
      { getAddr := [1, 0] ++ (name path ++ List.replicate (108 - m_length) 0)
        getAddrLen := 2 + m_length
        getAddrLen_le := by
          rw [List.length_append, List.length_append]
          exact Nat.add_le_add_left (Nat.le_add_right _ _) 2 }
  else none

variable {path path' : List UInt8} {a b : Address}

theorem key_create (ha : create path = some a) : a.key = 1 :: 0 :: (name path).map UInt8.toNat := by
  rw [create] at ha
  split_ifs at ha
  obtain rfl := Option.some.inj ha
  show ((1 :: 0 :: (name path ++ _)).take (2 + (name path).length)).map UInt8.toNat = _
  rw [Nat.add_comm, List.take_succ_cons, List.take_succ_cons, List.take_left]
  rfl

/-- Unix addresses are ordered as their names are, and a name that another begins with is less. -/
theorem create_lt_iff (ha : create path = some a) (hb : create path' = some b) :
    a.lt b = true ↔ (name path).map UInt8.toNat < (name path').map UInt8.toNat := by
  rw [Address.lt_iff, key_create ha, key_create hb]
  simp

/-- The empty path and the path of one `\0` are one address. -/
example : (create []).map Address.key = (create [0]).map Address.key := by decide

end UnixAddress

end LimWebserver.AddressOrder
