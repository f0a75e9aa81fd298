import LimWebserver.Net.Address

namespace LimWebserver.IPAddress

/-!
# Net — the algebra of prefixes

Network, broadcast address and mask of a prefix are said of the bits of an address in the order of
the network, for both families at once.  The code keeps the bits of `CreateMask` in
`networkAddress`, which are those behind the prefix.

* `Family`, `Lawful` — the functions of a family, and what they are to do for two addresses;
* `Selects` — a `networkAddress` that keeps some of the bits, whichever they are;
* `IPv4Address.selects`, `IPv6Address.selects` — the bits that the code keeps;
* `prefix_iff` — what this means for the addresses of both families.
-/

/-! ### Families of addresses -/

/-- The addresses of one family; where a function is undefined or returns no address, it has no
    value here. -/
structure Family (α : Type) where
  width : Nat
  bit : α → Nat → Bool
  port : α → BitVec 16
  subnetMask : Nat → Option α
  networkAddress : α → Nat → Option α
  broadcastAddress : α → Nat → Option α
  ext : ∀ a b, port a = port b → (∀ i < width, bit a i = bit b i) → a = b

namespace Family

variable {α : Type} (F : Family α) (p : Nat)

/-- The mask has the first `p` bits set, and no others. -/
def MaskRight : Prop :=
  ∃ m, F.subnetMask p = some m ∧ ∀ i < F.width, F.bit m i = decide (i < p)

def NetworkRight (a : α) : Prop :=
  ∃ n, F.networkAddress a p = some n ∧ F.port n = F.port a ∧
    ∀ i < F.width, F.bit n i = (F.bit a i && decide (i < p))

def BroadcastRight (a : α) : Prop :=
  ∃ n, F.broadcastAddress a p = some n ∧ F.port n = F.port a ∧
    ∀ i < F.width, F.bit n i = (F.bit a i || !decide (i < p))

def Idempotent (a : α) : Prop :=
  ∃ n, F.networkAddress a p = some n ∧ F.networkAddress n p = some n

/-- The networks are the same exactly if the first bits are. -/
def Separates (a b : α) : Prop :=
  ∃ n n', F.networkAddress a p = some n ∧ F.networkAddress b p = some n' ∧
    ((∀ i < F.width, F.bit n i = F.bit n' i) ↔ ∀ i < p, F.bit a i = F.bit b i)

structure Lawful (a b : α) : Prop where
  mask : F.MaskRight p
  network : F.NetworkRight p a ∧ F.NetworkRight p b
  broadcast : F.BroadcastRight p a ∧ F.BroadcastRight p b
  idempotent : F.Idempotent p a ∧ F.Idempotent p b
  separates : F.Separates p a b

/-- The network address is made of the bits at some of the positions. -/
def Selects (keep : Nat → Bool) : Prop :=
  ∀ a, ∃ n, F.networkAddress a p = some n ∧ F.port n = F.port a ∧
    ∀ i < F.width, F.bit n i = (F.bit a i && keep i)

variable {F p} {keep : Nat → Bool} {a b : α}

theorem Selects.idempotent (h : F.Selects p keep) (a : α) : F.Idempotent p a := by
  obtain ⟨n, hn, hport, hbit⟩ := h a
  obtain ⟨n', hn', hport', hbit'⟩ := h n
  refine ⟨n, hn, hn'.trans (congrArg some (F.ext _ _ hport' fun i hi => ?_))⟩
  rw [hbit' i hi, hbit i hi, Bool.and_assoc, Bool.and_self]

/-- It is the network where no bit is set at a position on which the two disagree. -/
theorem Selects.networkRight_iff (h : F.Selects p keep) :
    F.NetworkRight p a ↔ ∀ i < F.width, F.bit a i = true → keep i = decide (i < p) := by
  obtain ⟨n, hn, hport, hbit⟩ := h a
  constructor
  · rintro ⟨n', hn', -, hbit'⟩ i hi ha
    obtain rfl := Option.some.inj (hn.symm.trans hn')
    have hsame := (hbit i hi).symm.trans (hbit' i hi)
    rwa [ha, Bool.true_and, Bool.true_and] at hsame
  · intro hkeep
    refine ⟨n, hn, hport, fun i hi => (hbit i hi).trans ?_⟩
    cases ha : F.bit a i with
    | false => rw [Bool.false_and, Bool.false_and]
    | true => rw [hkeep i hi ha]

theorem separates_of_right (hp : p ≤ F.width) (ha : F.NetworkRight p a)
    (hb : F.NetworkRight p b) : F.Separates p a b := by
  obtain ⟨n, hn, -, hbit⟩ := ha
  obtain ⟨n', hn', -, hbit'⟩ := hb
  refine ⟨n, n', hn, hn', fun h i hi => ?_, fun h i hi => ?_⟩
  · have hsame := h i (Nat.lt_of_lt_of_le hi hp)
    rwa [hbit i (Nat.lt_of_lt_of_le hi hp), hbit' i (Nat.lt_of_lt_of_le hi hp),
      decide_eq_true hi, Bool.and_true, Bool.and_true] at hsame
  · rw [hbit i hi, hbit' i hi]
    by_cases hip : i < p
    · rw [h i hip]
    · rw [decide_eq_false hip, Bool.and_false, Bool.and_false]

/-- Everything hangs on the two network addresses. -/
theorem lawful_iff (hp : p ≤ F.width) (hmask : F.MaskRight p)
    (hbroadcast : ∀ a, F.BroadcastRight p a) (hselects : F.Selects p keep) :
    F.Lawful p a b ↔ F.NetworkRight p a ∧ F.NetworkRight p b :=
  ⟨fun h => h.network, fun h =>
    { mask := hmask
      network := h
      broadcast := ⟨hbroadcast a, hbroadcast b⟩
      idempotent := ⟨hselects.idempotent a, hselects.idempotent b⟩
      separates := separates_of_right hp h.1 h.2 }⟩

end Family

/-! ### IPv4 -/

namespace IPv4Address

variable {a b : IPv4Address} {p i : Nat}

theorem ext_bit (hport : a.sin_port = b.sin_port) (h : ∀ i < 32, a.bit i = b.bit i) : a = b := by
  have haddr : a.s_addr = b.s_addr := by
    refine BitVec.eq_of_getLsbD_eq fun i hi => ?_
    have hbit := h (8 * (i / 8) + (7 - i % 8)) (by omega)
    rw [bit, bit, show 8 * ((8 * (i / 8) + (7 - i % 8)) / 8) +
      (7 - (8 * (i / 8) + (7 - i % 8)) % 8) = i by omega] at hbit
    exact hbit
  cases a
  cases b
  congr

/-- The mask in the order of the network. -/
theorem bit_mask (hp : p ≤ 32) (hi : i < 32) :
    (htonl (lastBits 32 (32 - p))).getLsbD (8 * (i / 8) + (7 - i % 8)) = decide (p ≤ i) := by
  rw [getLsbD_htonl _ (by omega), getLsbD_lastBits (Nat.sub_le 32 p)]
  exact decide_eq_decide.mpr (by omega)

theorem CreateMask_of_le (h : 2 ≤ p) (hp : p ≤ 32) :
    CreateMask 32 p = some (lastBits 32 (32 - p)) := by
  rw [CreateMask_eq hp (Nat.le_refl 32), if_pos (by omega)]

def family : Family IPv4Address where
  width := 32
  bit := bit
  port := sin_port
  subnetMask := subnetMask
  networkAddress a p := (a.networkAddress p).join
  broadcastAddress a p := (a.broadcastAddress p).join
  ext _ _ := ext_bit

theorem selects (h : 2 ≤ p) (hp : p ≤ 32) : family.Selects p fun i => decide (p ≤ i) := by
  intro a
  refine ⟨{ a with s_addr := a.s_addr &&& htonl (lastBits 32 (32 - p)) }, ?_, rfl, fun i hi => ?_⟩
  · show (a.networkAddress p).join = _
    rw [networkAddress, if_neg (Nat.not_lt.mpr hp), CreateMask_of_le h hp]
    rfl
  · show (a.s_addr &&& htonl (lastBits 32 (32 - p))).getLsbD _ = _
    rw [BitVec.getLsbD_and, bit_mask hp hi]
    rfl

theorem broadcastRight (h : 2 ≤ p) (hp : p ≤ 32) (a : IPv4Address) :
    family.BroadcastRight p a := by
  refine ⟨{ a with s_addr := a.s_addr ||| htonl (lastBits 32 (32 - p)) }, ?_, rfl, fun i hi => ?_⟩
  · show (a.broadcastAddress p).join = _
    rw [broadcastAddress, if_neg (Nat.not_lt.mpr hp), CreateMask_of_le h hp]
    rfl
  · show (a.s_addr ||| htonl (lastBits 32 (32 - p))).getLsbD _ = _
    rw [BitVec.getLsbD_or, bit_mask hp hi, ← decide_not, decide_eq_decide.mpr Nat.not_lt]
    rfl

theorem maskRight (h : 2 ≤ p) (hp : p ≤ 32) : family.MaskRight p := by
  refine ⟨⟨~~~htonl (lastBits 32 (32 - p)), 0⟩, ?_, fun i hi => ?_⟩
  · show subnetMask p = _
    rw [subnetMask, CreateMask_of_le h hp]
    rfl
  · have hi' : i < 32 := hi
    show (~~~htonl (lastBits 32 (32 - p))).getLsbD _ = _
    rw [BitVec.getLsbD_not, bit_mask hp hi', decide_eq_true (by omega), Bool.true_and, ← decide_not]
    exact decide_eq_decide.mpr Nat.not_le

/-- Bits in front and behind the prefix are told apart everywhere, so that none may be set. -/
theorem networkRight_iff (h : 2 ≤ p) (hp : p ≤ 32) : family.NetworkRight p a ↔ a.s_addr = 0 := by
  rw [(selects h hp).networkRight_iff]
  constructor
  · intro hkeep
    have hzero : a = ⟨0, a.sin_port⟩ := by
      refine ext_bit rfl fun i hi => ?_
      cases hbit : a.bit i with
      | false => simp [bit]
      | true => exact absurd (decide_eq_decide.mp (hkeep i hi hbit)) (by omega)
    rw [hzero]
  · intro hzero i hi hbit
    have hbit' : a.bit i = true := hbit
    rw [bit, hzero] at hbit'
    simp at hbit'

/-- The first shifts are those that `int` cannot hold. -/
theorem not_maskRight (h : p < 2) : ¬family.MaskRight p := by
  rintro ⟨m, hm, -⟩
  have hm' : subnetMask p = some m := hm
  rw [subnetMask, CreateMask_eq (by omega) (Nat.le_refl 32), if_neg (by omega)] at hm'
  cases hm'

theorem lawful_iff (hp : p ≤ 32) :
    family.Lawful p a b ↔ 2 ≤ p ∧ a.s_addr = 0 ∧ b.s_addr = 0 := by
  by_cases h : 2 ≤ p
  · rw [Family.lawful_iff hp (maskRight h hp) (broadcastRight h hp) (selects h hp),
      networkRight_iff h hp, networkRight_iff h hp, and_iff_right h]
  · exact iff_of_false (fun hl => not_maskRight (Nat.not_le.mp h) hl.mask) fun hl => h hl.1

end IPv4Address

/-! ### IPv6 -/

namespace IPv6Address

variable {a b : IPv6Address} {p i : Nat} {s : Vector (BitVec 8) 16}

theorem ext_bit (hport : a.sin6_port = b.sin6_port) (h : ∀ i < 128, a.bit i = b.bit i) :
    a = b := by
  have haddr : a.s6_addr = b.s6_addr := by
    refine Vector.ext fun k hk => BitVec.eq_of_getLsbD_eq fun j hj => ?_
    have hbit := h (8 * k + (7 - j)) (by omega)
    rw [bit, bit, show (8 * k + (7 - j)) / 8 = k by omega,
      show 7 - (8 * k + (7 - j)) % 8 = j by omega, Vector.getElem?_eq_getElem hk,
      Vector.getElem?_eq_getElem hk] at hbit
    exact hbit
  cases a
  cases b
  congr

def family : Family IPv6Address where
  width := 128
  bit := bit
  port := sin6_port
  subnetMask := subnetMask
  networkAddress := networkAddress
  broadcastAddress := broadcastAddress
  ext _ _ := ext_bit

/-- The byte that holds the end of the prefix is changed, and those in a row are filled. -/
theorem modify_eq_some (hi : i < 16) (f : BitVec 8 → BitVec 8) :
    ∃ s', modify s i f = some s' ∧ ∀ k, s'[k]? = if k = i then some (f s[i]) else s[k]? := by
  refine ⟨s.set i (f s[i]), by rw [modify, dif_pos hi], fun k => ?_⟩
  rw [Vector.getElem?_set]
  simp only [eq_comm]

theorem fill_eq_some (v : BitVec 8) (count : Nat) (h : i + count ≤ 16) :
    ∃ s', fill v count i s = some s' ∧
      ∀ k, s'[k]? = if i ≤ k ∧ k < i + count then some v else s[k]? := by
  induction count generalizing i s with
  | zero => exact ⟨s, rfl, fun k => by rw [if_neg (by omega)]⟩
  | succ count ih =>
    obtain ⟨s', hs', hget⟩ := modify_eq_some (s := s) (i := i) (by omega) fun _ => v
    obtain ⟨s'', hs'', hget'⟩ := ih (i := i + 1) (s := s') (by omega)
    refine ⟨s'', by rw [fill, hs', Option.bind_some, hs''], fun k => ?_⟩
    rw [hget', hget]
    grind

theorem CreateMask_mod : CreateMask 8 (p % 8) = some (lastBits 8 (8 - p % 8)) := by
  rw [CreateMask_eq (by omega) (by omega), if_pos (by omega)]

/-- The bits of the mask in the order of the network. -/
theorem bit_mask : (lastBits 8 (8 - p % 8)).getLsbD (7 - i % 8) = decide (p % 8 ≤ i % 8) := by
  rw [getLsbD_lastBits (Nat.sub_le 8 _)]
  exact decide_eq_decide.mpr (by omega)

/-- The byte that holds the end of the prefix is changed, and all bytes behind it are filled. -/
theorem modify_fill (hp : p < 128) (a : IPv6Address) (f : BitVec 8 → BitVec 8) (v : BitVec 8) :
    ∃ s s', modify a.s6_addr (p / 8) f = some s ∧
      fill v (16 - (p / 8 + 1)) (p / 8 + 1) s = some s' ∧
      ∀ port i, i < 128 → bit ⟨s', port⟩ i =
        if i / 8 < p / 8 then bit a i
        else if i / 8 = p / 8 then (f (a.s6_addr[i / 8]?.getD 0)).getLsbD (7 - i % 8)
        else v.getLsbD (7 - i % 8) := by
  have hp8 : p / 8 < 16 := by omega
  obtain ⟨s, hs, hget⟩ := modify_eq_some (s := a.s6_addr) hp8 f
  obtain ⟨s', hs', hget'⟩ := fill_eq_some (s := s) (i := p / 8 + 1) v (16 - (p / 8 + 1)) (by omega)
  refine ⟨s, s', hs, hs', fun port i hi => ?_⟩
  rw [bit, hget', hget, bit]
  rcases Nat.lt_trichotomy (i / 8) (p / 8) with h | h | h
  · rw [if_neg (by omega), if_neg (by omega), if_pos h]
  · rw [if_neg (by omega), if_pos h, if_neg (by omega), if_pos h, h,
      Vector.getElem?_eq_getElem hp8, Option.getD_some, Option.getD_some]
  · rw [if_pos (by omega), if_neg (by omega), if_neg (by omega), Option.getD_some]

/-- The bits that the code keeps: whole bytes in front, and the end of the byte in which the prefix
    ends. -/
def keep (p i : Nat) : Bool := i / 8 < p / 8 ∨ i / 8 = p / 8 ∧ p % 8 ≤ i % 8

theorem selects (hp : p < 128) : family.Selects p (keep p) := by
  intro a
  obtain ⟨s, s', hs, hs', hbit⟩ := modify_fill hp a (· &&& lastBits 8 (8 - p % 8)) 0x00
  refine ⟨⟨s', a.sin6_port⟩, ?_, rfl, fun i (hi : i < 128) => ?_⟩
  · show networkAddress a p = _
    rw [networkAddress, CreateMask_mod]
    simp only [Option.bind_eq_bind, Option.bind_some, hs, hs', Option.pure_def]
  · show bit _ i = (bit a i && keep p i)
    rw [hbit _ i hi, keep]
    rcases Nat.lt_trichotomy (i / 8) (p / 8) with h | h | h
    · rw [if_pos h, decide_eq_true (.inl h), Bool.and_true]
    · rw [if_neg (by omega), if_pos h, BitVec.getLsbD_and, bit_mask, ← bit]
      congr 1
      exact decide_eq_decide.mpr (by omega)
    · rw [if_neg (by omega), if_neg (by omega), decide_eq_false (by omega), Bool.and_false]
      exact BitVec.getLsbD_zero

theorem getLsbD_ff {j : Nat} (hj : j < 8) : (0xff : BitVec 8).getLsbD j = true := by
  have h := getLsbD_lastBits (i := j) (Nat.le_refl 8)
  rwa [decide_eq_true hj] at h

theorem broadcastRight (hp : p < 128) (a : IPv6Address) : family.BroadcastRight p a := by
  obtain ⟨s, s', hs, hs', hbit⟩ := modify_fill hp a (· ||| lastBits 8 (8 - p % 8)) 0xff
  refine ⟨⟨s', a.sin6_port⟩, ?_, rfl, fun i (hi : i < 128) => ?_⟩
  · show broadcastAddress a p = _
    rw [broadcastAddress, CreateMask_mod]
    simp only [Option.bind_eq_bind, Option.bind_some, hs, hs', Option.pure_def]
  · show bit _ i = (bit a i || _)
    rw [hbit _ i hi, ← decide_not]
    rcases Nat.lt_trichotomy (i / 8) (p / 8) with h | h | h
    · rw [if_pos h, decide_eq_false (by omega), Bool.or_false]
    · rw [if_neg (by omega), if_pos h, BitVec.getLsbD_or, bit_mask, ← bit]
      congr 1
      exact decide_eq_decide.mpr (by omega)
    · rw [if_neg (by omega), if_neg (by omega), decide_eq_true (by omega), Bool.or_true]
      exact getLsbD_ff (by omega)

theorem maskRight (hp : p < 128) : family.MaskRight p := by
  obtain ⟨s, hs, hget⟩ := modify_eq_some (s := Vector.replicate 16 0) (i := p / 8) (by omega)
    fun _ => ~~~lastBits 8 (8 - p % 8)
  obtain ⟨s', hs', hget'⟩ := fill_eq_some (s := s) (i := 0) 0xff (p / 8) (by omega)
  refine ⟨⟨s', 0⟩, ?_, fun i (hi : i < 128) => ?_⟩
  · show subnetMask p = _
    rw [subnetMask, CreateMask_mod]
    simp only [Option.bind_eq_bind, Option.bind_some, hs, hs', Option.pure_def]
  · show bit _ i = _
    rw [bit, hget', hget]
    rcases Nat.lt_trichotomy (i / 8) (p / 8) with h | h | h
    · rw [if_pos (by omega), Option.getD_some, decide_eq_true (by omega)]
      exact getLsbD_ff (by omega)
    · rw [if_neg (by omega), if_pos h, Option.getD_some, BitVec.getLsbD_not, bit_mask,
        decide_eq_true (by omega), Bool.true_and, ← decide_not]
      exact decide_eq_decide.mpr (by omega)
    · rw [if_neg (by omega), if_neg (by omega), decide_eq_false (by omega),
        Vector.getElem?_replicate, if_pos (by omega)]
      exact BitVec.getLsbD_zero

/-- The bits of the byte in which the prefix ends are told apart from what they should be. -/
theorem networkRight_iff (hp : p < 128) :
    family.NetworkRight p a ↔ a.s6_addr[p / 8]? = some 0 := by
  have hp8 : p / 8 < 16 := by omega
  rw [(selects hp).networkRight_iff, Vector.getElem?_eq_getElem hp8]
  constructor
  · intro hkeep
    refine congrArg some (BitVec.eq_of_getLsbD_eq fun j hj => ?_)
    by_contra hne
    have hbit : a.bit (8 * (p / 8) + (7 - j)) = true := by
      rw [bit, show (8 * (p / 8) + (7 - j)) / 8 = p / 8 by omega,
        show 7 - (8 * (p / 8) + (7 - j)) % 8 = j by omega, Vector.getElem?_eq_getElem hp8]
      simpa using hne
    have hsame := decide_eq_decide.mp (hkeep (8 * (p / 8) + (7 - j)) (by omega : _ < 128) hbit)
    omega
  · intro hzero i (hi : i < 128) (hbit : a.bit i = true)
    have hbyte : i / 8 ≠ p / 8 := by
      intro h
      rw [bit, h, Vector.getElem?_eq_getElem hp8, Option.some.inj hzero, Option.getD_some] at hbit
      simp at hbit
    exact decide_eq_decide.mpr (by omega)

/-- With the whole address as its prefix, the store is behind the last byte. -/
theorem not_maskRight : ¬family.MaskRight 128 := by
  rintro ⟨m, hm, -⟩
  cases hm

theorem lawful_iff (hp : p ≤ 128) : family.Lawful p a b ↔
    p < 128 ∧ a.s6_addr[p / 8]? = some 0 ∧ b.s6_addr[p / 8]? = some 0 := by
  rcases Nat.lt_or_eq_of_le hp with h | rfl
  · rw [Family.lawful_iff hp (maskRight h) (broadcastRight h) (selects h), networkRight_iff h,
      networkRight_iff h, and_iff_right h]
  · exact iff_of_false (fun hl => not_maskRight hl.mask) fun hl => Nat.lt_irrefl 128 hl.1

end IPv6Address

/-! ### Both families -/

namespace Pair

def width : Pair → Nat
  | .ipv4 _ _ => 32
  | .ipv6 _ _ => 128

/-- The functions do for the two addresses what they are to do. -/
def Lawful (p : Nat) : Pair → Prop
  | .ipv4 a b => IPv4Address.family.Lawful p a b
  | .ipv6 a b => IPv6Address.family.Lawful p a b

/-- The bits that are kept by mistake are not set, and nothing is undefined. -/
def Blank (p : Nat) : Pair → Prop
  | .ipv4 a b => 2 ≤ p ∧ a.s_addr = 0 ∧ b.s_addr = 0
  | .ipv6 a b => p < 128 ∧ a.s6_addr[p / 8]? = some 0 ∧ b.s6_addr[p / 8]? = some 0

end Pair

/-- **The code's prefix algebra**: it is right for the addresses that have no bits to be kept. -/
theorem prefix_iff (q : Pair) (p : Nat) (hp : p ≤ q.width) : q.Lawful p ↔ q.Blank p := by
  cases q with
  | ipv4 a b => exact IPv4Address.lawful_iff hp
  | ipv6 a b => exact IPv6Address.lawful_iff hp

/-- No bit is set in the addresses, and the prefix is of the usual length. -/
theorem prefix_iff_any : (Pair.ipv6 ⟨.replicate 16 0, 0x5000⟩ ⟨.replicate 16 0, 0⟩).Lawful 64 :=
  (prefix_iff _ 64 (by decide)).mpr ⟨by decide, by decide, by decide⟩

/-- 192.168.1.7 with a prefix of 24 bits: for its network the code finds 0.0.0.7. -/
theorem prefix_private : ¬∀ (q : Pair) (p : Nat), p ≤ q.width → q.Lawful p := fun h =>
  absurd (IPv4Address.lawful_iff (by decide) |>.mp <|
    h (.ipv4 ⟨0x0701A8C0, 0x5000⟩ ⟨0x0701A8C0, 0x5000⟩) 24 (by decide)) (by decide)

example : IPv4Address.networkAddress ⟨0x0701A8C0, 0x5000⟩ 24 =
    some (some ⟨0x07000000, 0x5000⟩) := by decide

end LimWebserver.IPAddress
