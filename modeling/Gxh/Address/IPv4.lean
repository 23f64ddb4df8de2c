import Gxh.ByteArray.Basic
import Gxh.Lib.Signed

/-!
# IPv4 network arithmetic

`IPv4Address::networkAddress`, `broadcastAddress` and `subnetMask` (`address.cc`). The mask is
computed in host order by `CreateMask`, in an `int` whatever the type asked for, and swapped to
network order on a little-endian host (`order`); bit `i` of an address is its bit number `i` on
the wire.

* `createMask_eq` — the mask has the bits behind the prefix, where the `int` can hold it;
* `ipv4_prefix_iff` — the three functions are right from a prefix of two bits on. A prefix of no
  bits shifts by 32, a prefix of one bit by 31.
-/

namespace Gxh.Address

/-- `1 << shift` in an `int`. -/
def shiftOne (shift : Nat) : Option Int :=
  if shift < 32 then signed half32 (2 ^ shift) else none

/-- `CreateMask<T>(bits)` for a `T` of `w` bits; `none` where the shift or the difference is
undefined. -/
def createMask (w bits : Nat) : Option (BitVec w) := do
  let power ← shiftOne (sub64 w bits)
  let mask ← signed half32 (power - 1)
  pure (BitVec.ofInt w mask)

/-- The bits behind a prefix of `bits` bits. -/
theorem createMask_eq {w bits : Nat} (hw : w < 64) (hbits : bits ≤ w) (h : w ≤ bits + 30) :
    createMask w bits = some (BitVec.ofNat w (2 ^ (w - bits) - 1)) := by
  have hshift : sub64 w bits = w - bits := sub64_of_le (by unfold size64; omega) hbits
  have hle : 2 ^ (w - bits) ≤ 2 ^ 30 := Nat.pow_le_pow_right (by decide) (by omega)
  have hpos : 0 < 2 ^ (w - bits) := Nat.pow_pos (by decide)
  have hcast : ((2 : Int) ^ (w - bits)) = ((2 ^ (w - bits) : Nat) : Int) := by norm_cast
  have hdiff : ((2 ^ (w - bits) : Nat) : Int) - 1 = ((2 ^ (w - bits) - 1 : Nat) : Int) := by
    omega
  unfold createMask shiftOne
  rw [hshift, if_pos (by omega), hcast]
  rw [signed_of_lt (by omega) (by unfold half32; omega)]
  show (signed half32 _).bind _ = _
  rw [hdiff, signed_of_lt (by omega) (by unfold half32; omega)]
  show some (BitVec.ofInt w _) = _
  rw [BitVec.ofInt_natCast]

theorem createMask_eq_none {w bits : Nat} (hw : w < 64) (hbits : bits ≤ w) (h : bits + 30 < w) :
    createMask w bits = none := by
  have hshift : sub64 w bits = w - bits := sub64_of_le (by unfold size64; omega) hbits
  unfold createMask shiftOne
  rw [hshift]
  split
  · have hone : w - bits = 31 := by omega
    rw [hone]
    rfl
  · rfl

/-- Bit `i` of the mask, from the most significant one on. -/
theorem getMsbD_mask {w bits i : Nat} (hbits : bits ≤ w) (hi : i < w) :
    (BitVec.ofNat w (2 ^ (w - bits) - 1)).getMsbD i = decide (bits ≤ i) := by
  rw [BitVec.getMsbD_eq_getLsbD, BitVec.getLsbD_ofNat, Nat.testBit_two_pow_sub_one,
    decide_eq_true hi, decide_eq_true (show w - 1 - i < w by omega), Bool.true_and, Bool.true_and]
  exact decide_eq_decide.mpr (by omega)

/-- `bswap_32`. -/
def byteswap (x : BitVec 32) : BitVec 32 :=
  x.extractLsb' 0 8 ++ x.extractLsb' 8 8 ++ x.extractLsb' 16 8 ++ x.extractLsb' 24 8

theorem getLsbD_byteswap (x : BitVec 32) {i : Nat} (hi : i < 32) :
    (byteswap x).getLsbD i = x.getLsbD (24 - 8 * (i / 8) + i % 8) := by
  unfold byteswap
  simp only [BitVec.getLsbD_append, BitVec.getLsbD_extractLsb']
  by_cases h1 : i < 8
  · rw [if_pos h1, decide_eq_true h1, Bool.true_and]
    congr 1
    omega
  · by_cases h2 : i - 8 < 8
    · rw [if_neg h1, if_pos h2, decide_eq_true h2, Bool.true_and]
      congr 1
      omega
    · by_cases h3 : i - 8 - 8 < 8
      · rw [if_neg h1, if_neg h2, if_pos h3, decide_eq_true h3, Bool.true_and]
        congr 1
        omega
      · have h4 : i - 8 - 8 - 8 < 8 := by omega
        rw [if_neg h1, if_neg h2, if_neg h3, decide_eq_true h4, Bool.true_and]
        congr 1
        omega

@[simp] theorem byteswap_byteswap (x : BitVec 32) : byteswap (byteswap x) = x := by
  apply BitVec.eq_of_getLsbD_eq
  intro i hi
  rw [getLsbD_byteswap _ hi, getLsbD_byteswap _ (by omega)]
  congr 1
  omega

/-- Swapping bytes commutes with what is done bit by bit. -/
theorem byteswap_and (x y : BitVec 32) : byteswap (x &&& y) = byteswap x &&& byteswap y := by
  apply BitVec.eq_of_getLsbD_eq
  intro i hi
  rw [BitVec.getLsbD_and, getLsbD_byteswap _ hi, getLsbD_byteswap _ hi, getLsbD_byteswap _ hi,
    BitVec.getLsbD_and]

theorem byteswap_or (x y : BitVec 32) : byteswap (x ||| y) = byteswap x ||| byteswap y := by
  apply BitVec.eq_of_getLsbD_eq
  intro i hi
  rw [BitVec.getLsbD_or, getLsbD_byteswap _ hi, getLsbD_byteswap _ hi, getLsbD_byteswap _ hi,
    BitVec.getLsbD_or]

theorem byteswap_not (x : BitVec 32) : byteswap (~~~x) = ~~~byteswap x := by
  apply BitVec.eq_of_getLsbD_eq
  intro i hi
  rw [BitVec.getLsbD_not, getLsbD_byteswap _ hi, getLsbD_byteswap _ hi, BitVec.getLsbD_not,
    decide_eq_true hi, decide_eq_true (show 24 - 8 * (i / 8) + i % 8 < 32 by omega)]

/-- `byteswapOnLittleEndian`. -/
def byteswapOnLittleEndian (order : Endian) (x : BitVec 32) : BitVec 32 :=
  match order with
  | .little => byteswap x
  | .big => x

/-- `sockaddr_in`, with `sin_addr.s_addr` as the host reads it. -/
structure SockaddrIn where
  sin_family : BitVec 16
  sin_port : BitVec 16
  s_addr : BitVec 32
  deriving DecidableEq, Repr

def AF_INET : BitVec 16 := 2

namespace IPv4Address

variable (order : Endian)

/-- `broadcastAddress`: undefined, a null pointer or an address. -/
def broadcastAddress (m_addr : SockaddrIn) (prefixLen : Nat) : Option (Option SockaddrIn) :=
  if prefixLen > 32 then some none
  else
    (createMask 32 prefixLen).map fun mask =>
      some { m_addr with s_addr := m_addr.s_addr ||| byteswapOnLittleEndian order mask }

/-- `networkAddress`. -/
def networkAddress (m_addr : SockaddrIn) (prefixLen : Nat) : Option (Option SockaddrIn) :=
  if prefixLen > 32 then some none
  else
    (createMask 32 prefixLen).map fun mask =>
      some { m_addr with s_addr := m_addr.s_addr &&& byteswapOnLittleEndian order (~~~mask) }

/-- `subnetMask`. -/
def subnetMask (prefixLen : Nat) : Option SockaddrIn :=
  (createMask 32 prefixLen).map fun mask =>
    { sin_family := AF_INET, sin_port := 0, s_addr := ~~~byteswapOnLittleEndian order mask }

/-- Bit `i` of the address on the wire. -/
def bit (a : SockaddrIn) (i : Nat) : Bool := (byteswapOnLittleEndian order a.s_addr).getMsbD i

end IPv4Address

/-- The three functions do for this address and prefix what they are for: nothing on the way is
undefined, the network address keeps the bits of the prefix and clears the others, the broadcast
address sets the others, the mask has the bits of the prefix. -/
structure IPv4PrefixOk (order : Endian) (a : SockaddrIn) (prefixLen : Nat) : Prop where
  network : ∃ n, IPv4Address.networkAddress order a prefixLen = some (some n) ∧
    n.sin_family = a.sin_family ∧ n.sin_port = a.sin_port ∧
    ∀ i < 32, IPv4Address.bit order n i = (decide (i < prefixLen) && IPv4Address.bit order a i)
  broadcast : ∃ b, IPv4Address.broadcastAddress order a prefixLen = some (some b) ∧
    b.sin_family = a.sin_family ∧ b.sin_port = a.sin_port ∧
    ∀ i < 32, IPv4Address.bit order b i = (decide (prefixLen ≤ i) || IPv4Address.bit order a i)
  mask : ∃ m, IPv4Address.subnetMask order prefixLen = some m ∧
    ∀ i < 32, IPv4Address.bit order m i = decide (i < prefixLen)

variable {order : Endian}

theorem byteswapOnLittleEndian_and (x y : BitVec 32) : byteswapOnLittleEndian order (x &&& y) =
    byteswapOnLittleEndian order x &&& byteswapOnLittleEndian order y := by
  cases order with
  | little => exact byteswap_and x y
  | big => rfl

theorem byteswapOnLittleEndian_or (x y : BitVec 32) : byteswapOnLittleEndian order (x ||| y) =
    byteswapOnLittleEndian order x ||| byteswapOnLittleEndian order y := by
  cases order with
  | little => exact byteswap_or x y
  | big => rfl

theorem byteswapOnLittleEndian_not (x : BitVec 32) :
    byteswapOnLittleEndian order (~~~x) = ~~~byteswapOnLittleEndian order x := by
  cases order with
  | little => exact byteswap_not x
  | big => rfl

@[simp] theorem byteswapOnLittleEndian_twice (x : BitVec 32) :
    byteswapOnLittleEndian order (byteswapOnLittleEndian order x) = x := by
  cases order with
  | little => exact byteswap_byteswap x
  | big => rfl

/-- Where the mask exists the three functions are right. -/
theorem ipv4PrefixOk_of_mask (a : SockaddrIn) {prefixLen : Nat} (hle : prefixLen ≤ 32)
    (hmask : createMask 32 prefixLen = some (BitVec.ofNat 32 (2 ^ (32 - prefixLen) - 1))) :
    IPv4PrefixOk order a prefixLen := by
  have hin : ¬prefixLen > 32 := not_lt.mpr hle
  -- the mask has a one for each bit behind the prefix
  have hbehind : ∀ i, (!decide (prefixLen ≤ i)) = decide (i < prefixLen) := by
    intro i
    rw [← decide_not]
    exact decide_eq_decide.mpr not_le
  refine ⟨?_, ?_, ?_⟩
  · unfold IPv4Address.networkAddress
    rw [if_neg hin, hmask]
    refine ⟨_, rfl, rfl, rfl, fun i hi => ?_⟩
    unfold IPv4Address.bit
    -- the two byte swaps cancel, and what is left is one bit of the mask
    rw [byteswapOnLittleEndian_and, byteswapOnLittleEndian_twice, BitVec.getMsbD_and,
      BitVec.getMsbD_not, getMsbD_mask hle hi, decide_eq_true hi, Bool.true_and, hbehind,
      Bool.and_comm]
  · unfold IPv4Address.broadcastAddress
    rw [if_neg hin, hmask]
    refine ⟨_, rfl, rfl, rfl, fun i hi => ?_⟩
    unfold IPv4Address.bit
    rw [byteswapOnLittleEndian_or, byteswapOnLittleEndian_twice, BitVec.getMsbD_or,
      getMsbD_mask hle hi, Bool.or_comm]
  · unfold IPv4Address.subnetMask
    rw [hmask]
    refine ⟨_, rfl, fun i hi => ?_⟩
    unfold IPv4Address.bit
    rw [byteswapOnLittleEndian_not, byteswapOnLittleEndian_twice, BitVec.getMsbD_not,
      getMsbD_mask hle hi, decide_eq_true hi, Bool.true_and, hbehind]

/-- The functions are right for every prefix of two bits or more, and for no shorter one. -/
theorem ipv4_prefix_iff (order : Endian) (a : SockaddrIn) {prefixLen : Nat} (hle : prefixLen ≤ 32) :
    IPv4PrefixOk order a prefixLen ↔ 2 ≤ prefixLen := by
  constructor
  · rintro ⟨-, -, m, hm, -⟩
    by_contra hshort
    have hnone : createMask 32 prefixLen = none :=
      createMask_eq_none (by decide) hle (by omega)
    unfold IPv4Address.subnetMask at hm
    rw [hnone] at hm
    cases hm
  · intro hlong
    exact ipv4PrefixOk_of_mask a hle (createMask_eq (by decide) hle (by omega))

/-- 192.168.1.120, on a little-endian host. -/
def exampleAddress : SockaddrIn := ⟨AF_INET, 0, 0x7801a8c0⟩

theorem ipv4_prefix_24 : IPv4PrefixOk .little exampleAddress 24 :=
  (ipv4_prefix_iff .little exampleAddress (by decide)).mpr (by decide)

/-- The default route has no network address. -/
theorem ipv4_prefix_0 : IPv4Address.networkAddress .little exampleAddress 0 = none ∧
    IPv4Address.subnetMask .little 0 = none ∧ ¬IPv4PrefixOk .little exampleAddress 0 := by
  have hnone : IPv4Address.subnetMask .little 0 = none := by decide
  refine ⟨by decide, hnone, ?_⟩
  rintro ⟨-, -, m, hm, -⟩
  rw [hnone] at hm
  cases hm

end Gxh.Address
