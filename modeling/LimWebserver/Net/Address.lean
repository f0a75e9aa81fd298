import Mathlib.Data.Nat.Bitwise
import Mathlib.Data.Vector.Basic

namespace LimWebserver.IPAddress

/-!
# Net — IP addresses and their prefixes

* `IPv4Address`, `IPv6Address` — the addresses, as they stand in memory;
* `htons`, `htonl` — the order of the network and that of the host;
* `CreateMask`, and `broadcastAddress`, `networkAddress`, `subnetMask` of both families;
* `bit` — the bits of an address in the order of the network.
-/

/-- `sockaddr_in` without the family. -/
structure IPv4Address where
  /-- four bytes of memory, the first of which is the lowest here -/
  s_addr : BitVec 32
  sin_port : BitVec 16
  deriving DecidableEq, Repr

/-- `sockaddr_in6` without the family, the flow and the scope. -/
structure IPv6Address where
  s6_addr : Vector (BitVec 8) 16
  sin6_port : BitVec 16
  deriving DecidableEq, Repr

/-- Two addresses of one family. -/
inductive Pair where
  | ipv4 (a b : IPv4Address)
  | ipv6 (a b : IPv6Address)

def htons (x : BitVec 16) : BitVec 16 := x.extractLsb' 0 8 ++ x.extractLsb' 8 8

def htonl (x : BitVec 32) : BitVec 32 :=
  x.extractLsb' 0 8 ++ x.extractLsb' 8 8 ++ x.extractLsb' 16 8 ++ x.extractLsb' 24 8

/-- `CreateMask<T>(bits)`, where `T` has `w` bits; none for what is undefined, and all is computed
    in `int`. -/
def CreateMask (w bits : Nat) : Option (BitVec w) :=
  -- `sizeof(T) * 8 - bits` of type `size_t`
  let shift := (w + 2 ^ 64 - bits) % 2 ^ 64
  if 32 ≤ shift then none
  else
    let mask := ((2 : Int) ^ shift).bmod (2 ^ 32) - 1
    if mask < -2 ^ 31 then none else some (BitVec.ofInt w mask)

namespace IPv4Address

variable (a : IPv4Address) (prefix_len : Nat)

/-- `broadcastAddress`, which may return no address; none for what is undefined. -/
def broadcastAddress : Option (Option IPv4Address) :=
  if prefix_len > 32 then some none
  else do
    let mask ← CreateMask 32 prefix_len
    return some { a with s_addr := a.s_addr ||| htonl mask }

def networkAddress : Option (Option IPv4Address) :=
  if prefix_len > 32 then some none
  else do
    let mask ← CreateMask 32 prefix_len
    return some { a with s_addr := a.s_addr &&& htonl mask }

def subnetMask : Option IPv4Address := do
  let mask ← CreateMask 32 prefix_len
  return { s_addr := ~~~htonl mask, sin_port := 0 }

/-- The `i`-th bit of the address in the order of the network. -/
def bit (i : Nat) : Bool := a.s_addr.getLsbD (8 * (i / 8) + (7 - i % 8))

end IPv4Address

namespace IPv6Address

/-- `s6_addr[i] = f(s6_addr[i])`; none outside the sixteen bytes. -/
def modify (s : Vector (BitVec 8) 16) (i : Nat) (f : BitVec 8 → BitVec 8) :
    Option (Vector (BitVec 8) 16) :=
  if h : i < 16 then some (s.set i (f s[i])) else none

/-- `count` rounds of a loop that stores a byte at the next position. -/
def fill (v : BitVec 8) : Nat → Nat → Vector (BitVec 8) 16 → Option (Vector (BitVec 8) 16)
  | 0, _, s => some s
  | count + 1, i, s => (modify s i fun _ => v).bind (fill v count (i + 1))

variable (a : IPv6Address) (prefix_len : Nat)

def broadcastAddress : Option IPv6Address := do
  let mask ← CreateMask 8 (prefix_len % 8)
  let s ← modify a.s6_addr (prefix_len / 8) (· ||| mask)
  let s ← fill 0xff (16 - (prefix_len / 8 + 1)) (prefix_len / 8 + 1) s
  return { a with s6_addr := s }

def networkAddress : Option IPv6Address := do
  let mask ← CreateMask 8 (prefix_len % 8)
  let s ← modify a.s6_addr (prefix_len / 8) (· &&& mask)
  let s ← fill 0x00 (16 - (prefix_len / 8 + 1)) (prefix_len / 8 + 1) s
  return { a with s6_addr := s }

def subnetMask : Option IPv6Address := do
  let mask ← CreateMask 8 (prefix_len % 8)
  let s ← modify (Vector.replicate 16 0) (prefix_len / 8) fun _ => ~~~mask
  let s ← fill 0xff (prefix_len / 8) 0 s
  return { s6_addr := s, sin6_port := 0 }

def bit (i : Nat) : Bool := (a.s6_addr[i / 8]?.getD 0).getLsbD (7 - i % 8)

end IPv6Address

/-! ### The order of the bytes -/

theorem getLsbD_htons (x : BitVec 16) {i : Nat} (hi : i < 16) :
    (htons x).getLsbD i = x.getLsbD (8 * (1 - i / 8) + i % 8) := by
  simp only [htons, BitVec.getLsbD_append, BitVec.getLsbD_extractLsb']
  grind

theorem getLsbD_htonl (x : BitVec 32) {i : Nat} (hi : i < 32) :
    (htonl x).getLsbD i = x.getLsbD (8 * (3 - i / 8) + i % 8) := by
  simp only [htonl, BitVec.getLsbD_append, BitVec.getLsbD_extractLsb']
  grind

theorem htons_htons (x : BitVec 16) : htons (htons x) = x := by
  refine BitVec.eq_of_getLsbD_eq fun i hi => ?_
  rw [getLsbD_htons _ hi, getLsbD_htons _ (by omega)]
  congr 1
  omega

/-! ### The mask -/

/-- The number whose last `n` bits are set. -/
def lastBits (w n : Nat) : BitVec w := BitVec.ofNat w (2 ^ n - 1)

theorem getLsbD_lastBits {w n i : Nat} (hn : n ≤ w) :
    (lastBits w n).getLsbD i = decide (i < n) := by
  rw [lastBits, BitVec.getLsbD_ofNat, Nat.testBit_two_pow_sub_one, ← Bool.decide_and]
  exact decide_eq_decide.mpr (and_iff_right_of_imp fun h => Nat.lt_of_lt_of_le h hn)

/-- The mask sets the bits behind the prefix, where `int` can hold the power of two. -/
theorem CreateMask_eq {w bits : Nat} (hbits : bits ≤ w) (hw : w ≤ 32) :
    CreateMask w bits = if w - bits < 31 then some (lastBits w (w - bits)) else none := by
  have hshift : (w + 2 ^ 64 - bits) % 2 ^ 64 = w - bits := by omega
  rw [CreateMask]
  simp only [hshift]
  rcases Nat.lt_trichotomy (w - bits) 31 with h | h | h
  · have hsmall : 2 ^ (w - bits) ≤ 2 ^ 30 := Nat.pow_le_pow_right (by decide) (by omega)
    have hpos : 0 < 2 ^ (w - bits) := Nat.two_pow_pos _
    have hmod : ((2 : Int) ^ (w - bits)).bmod (2 ^ 32) = ((2 ^ (w - bits) : Nat) : Int) := by
      rw [← Nat.cast_ofNat, ← Int.natCast_pow]
      rw [Int.bmod_eq_of_le] <;> omega
    rw [hmod, if_neg (by omega), if_neg (by omega), if_pos h, lastBits, ← BitVec.ofInt_natCast,
      Int.ofNat_sub hpos, Int.natCast_one]
  · -- the power is the lowest `int`, from which 1 cannot be subtracted
    rw [h, if_neg (by decide), if_pos (by decide), if_neg (by decide)]
  · rw [if_pos (by omega), if_neg (by omega)]

end LimWebserver.IPAddress
