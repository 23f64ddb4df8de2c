import Gxh.Address.IPv4

/-!
# IPv6 network arithmetic

`IPv6Address::networkAddress`, `broadcastAddress` and `subnetMask` (`address.cc`), on the sixteen
bytes of an address. An access to a byte behind the sixteenth is undefined. Each function treats
the byte that the prefix ends in by itself and the others in a loop.

`networkAddress` combines that byte with the mask of the bits behind the prefix instead of those
of the prefix, so that `ipv6_prefix_iff` finds it right only where the byte is zero anyway.
-/

namespace Gxh.Address

/-- `s6_addr`. -/
abbrev Bytes16 := Vector (BitVec 8) 16

/-- `sockaddr_in6`. -/
structure SockaddrIn6 where
  sin6_family : BitVec 16
  sin6_port : BitVec 16
  s6_addr : Bytes16
  deriving DecidableEq, Repr

def AF_INET6 : BitVec 16 := 10

/-- An assignment to `s6_addr[i]`. -/
def modifyByte (v : Bytes16) (i : Nat) (f : BitVec 8 → BitVec 8) : Option Bytes16 :=
  if h : i < 16 then some (v.set i (f v[i])) else none

/-- The loops: `count` bytes from index `i` on become `x`. -/
def fill (x : BitVec 8) : (i count : Nat) → Bytes16 → Option Bytes16
  | _, 0, v => some v
  | i, count + 1, v => (modifyByte v i fun _ => x).bind (fill x (i + 1) count)

namespace IPv6Address

/-- `broadcastAddress`. -/
def broadcastAddress (m_addr : SockaddrIn6) (prefixLen : Nat) : Option SockaddrIn6 := do
  let mask ← createMask 8 (prefixLen % 8)
  let bytes ← modifyByte m_addr.s6_addr (prefixLen / 8) fun byte => byte ||| mask
  let filled ← fill 0xff (prefixLen / 8 + 1) (16 - (prefixLen / 8 + 1)) bytes
  pure { m_addr with s6_addr := filled }

/-- `networkAddress`. -/
def networkAddress (m_addr : SockaddrIn6) (prefixLen : Nat) : Option SockaddrIn6 := do
  let mask ← createMask 8 (prefixLen % 8)
  let bytes ← modifyByte m_addr.s6_addr (prefixLen / 8) fun byte => byte &&& mask
  let filled ← fill 0x00 (prefixLen / 8 + 1) (16 - (prefixLen / 8 + 1)) bytes
  pure { m_addr with s6_addr := filled }

/-- `subnetMask`. -/
def subnetMask (prefixLen : Nat) : Option SockaddrIn6 := do
  let mask ← createMask 8 (prefixLen % 8)
  let bytes ← modifyByte (Vector.replicate 16 0) (prefixLen / 8) fun _ => ~~~mask
  let filled ← fill 0xff 0 (prefixLen / 8) bytes
  pure { sin6_family := AF_INET6, sin6_port := 0, s6_addr := filled }

/-- Bit `i` of the address. -/
def bit (a : SockaddrIn6) (i : Nat) : Bool := (a.s6_addr[i / 8]?.getD 0).getMsbD (i % 8)

end IPv6Address

open IPv6Address

/-- The three functions do for this address and prefix what they are for, and use no byte behind
the sixteenth. -/
structure IPv6PrefixOk (a : SockaddrIn6) (prefixLen : Nat) : Prop where
  network : ∃ n, networkAddress a prefixLen = some n ∧
    ∀ i < 128, bit n i = (decide (i < prefixLen) && bit a i)
  broadcast : ∃ b, broadcastAddress a prefixLen = some b ∧
    ∀ i < 128, bit b i = (decide (prefixLen ≤ i) || bit a i)
  mask : ∃ m, subnetMask prefixLen = some m ∧ ∀ i < 128, bit m i = decide (i < prefixLen)
  and : ∀ n m, networkAddress a prefixLen = some n → subnetMask prefixLen = some m →
    ∀ i < 128, bit n i = (bit a i && bit m i)

/-! ## Bytes -/

theorem modifyByte_eq {v : Bytes16} {i : Nat} (hi : i < 16) (f : BitVec 8 → BitVec 8) :
    ∃ u, modifyByte v i f = some u ∧
      ∀ k (hk : k < 16), u[k] = if k = i then f v[i] else v[k] := by
  refine ⟨v.set i (f v[i]), dif_pos hi, fun k hk => ?_⟩
  rw [Vector.getElem_set]
  exact if_congr eq_comm rfl rfl

theorem fill_eq (x : BitVec 8) {i count : Nat} (h : i + count ≤ 16) (v : Bytes16) :
    ∃ u, fill x i count v = some u ∧
      ∀ k (hk : k < 16), u[k] = if i ≤ k ∧ k < i + count then x else v[k] := by
  induction count generalizing i v with
  | zero =>
      refine ⟨v, rfl, fun k hk => ?_⟩
      rw [if_neg (by omega)]
  | succ count ih =>
      obtain ⟨w, hw, hbyte⟩ := modifyByte_eq (v := v) (i := i) (by omega) fun _ => x
      obtain ⟨u, hu, hrest⟩ := ih (i := i + 1) (by omega) w
      refine ⟨u, ?_, fun k hk => ?_⟩
      · show (modifyByte v i fun _ => x).bind (fill x (i + 1) count) = some u
        rw [hw]
        exact hu
      · rw [hrest k hk, hbyte k hk]
        by_cases hki : k = i
        · rw [if_neg (by omega), if_pos hki, if_pos (by omega)]
        · by_cases hin : i + 1 ≤ k ∧ k < i + 1 + count
          · rw [if_pos hin, if_pos (by omega)]
          · rw [if_neg hin, if_neg hki, if_neg (by omega)]

/-- The mask of the bits behind the prefix in its last byte. -/
def byteMask (prefixLen : Nat) : BitVec 8 := BitVec.ofNat 8 (2 ^ (8 - prefixLen % 8) - 1)

theorem createMask_byteMask (prefixLen : Nat) :
    createMask 8 (prefixLen % 8) = some (byteMask prefixLen) :=
  createMask_eq (by decide) (by omega) (by omega)

theorem getMsbD_byteMask (prefixLen : Nat) {j : Nat} (hj : j < 8) :
    (byteMask prefixLen).getMsbD j = decide (prefixLen % 8 ≤ j) :=
  getMsbD_mask (by omega) hj

theorem bit_eq (a : SockaddrIn6) {i : Nat} (hi : i / 8 < 16) :
    bit a i = a.s6_addr[i / 8].getMsbD (i % 8) := by
  unfold bit
  rw [Vector.getElem?_eq_getElem hi]
  rfl

/-- The byte the prefix ends in, and the bytes behind it. -/
theorem modifyByte_fill {j : Nat} (hj : j < 16) (v : Bytes16) (f : BitVec 8 → BitVec 8)
    (x : BitVec 8) :
    ∃ u, (modifyByte v j f).bind (fill x (j + 1) (16 - (j + 1))) = some u ∧
      ∀ k (hk : k < 16), u[k] = if k < j then v[k] else if k = j then f v[k] else x := by
  obtain ⟨w, hw, hbyte⟩ := modifyByte_eq hj f (v := v)
  have hend : j + 1 + (16 - (j + 1)) ≤ 16 := by omega
  obtain ⟨u, hu, hrest⟩ := fill_eq x hend w
  refine ⟨u, ?_, fun k hk => ?_⟩
  · rw [hw]
    exact hu
  · rw [hrest k hk, hbyte k hk]
    rcases Nat.lt_trichotomy k j with hlt | heq | hgt
    · rw [if_neg (by omega), if_neg (by omega), if_pos hlt]
    · subst heq
      rw [if_neg (by omega), if_pos rfl, if_neg (by omega), if_pos rfl]
    · rw [if_pos (by omega), if_neg (by omega), if_neg (by omega)]

/-! ## The three functions -/

variable {a : SockaddrIn6} {prefixLen : Nat}

theorem networkAddress_eq (a : SockaddrIn6) (h : prefixLen < 128) :
    ∃ n, networkAddress a prefixLen = some n ∧ ∀ k (hk : k < 16), n.s6_addr[k] =
      if k < prefixLen / 8 then a.s6_addr[k]
      else if k = prefixLen / 8 then a.s6_addr[k] &&& byteMask prefixLen else 0 := by
  obtain ⟨u, hu, hbytes⟩ := modifyByte_fill (show prefixLen / 8 < 16 by omega) a.s6_addr
    (fun byte => byte &&& byteMask prefixLen) 0x00
  refine ⟨{ a with s6_addr := u }, ?_, hbytes⟩
  unfold networkAddress
  rw [createMask_byteMask]
  obtain ⟨bytes, hbytes, hfill⟩ := Option.bind_eq_some_iff.mp hu
  simp only [Option.bind_eq_bind, Option.bind_some, hbytes, hfill]
  rfl

/-- The first access is behind the address. -/
theorem networkAddress_eq_none (a : SockaddrIn6) (h : 128 ≤ prefixLen) :
    networkAddress a prefixLen = none := by
  have hnone : ∀ f, modifyByte a.s6_addr (prefixLen / 8) f = none := fun f =>
    dif_neg (by omega)
  unfold networkAddress
  rw [createMask_byteMask]
  simp only [Option.bind_eq_bind, Option.bind_some, hnone]
  rfl

theorem broadcastAddress_eq (a : SockaddrIn6) (h : prefixLen < 128) :
    ∃ b, broadcastAddress a prefixLen = some b ∧ ∀ k (hk : k < 16), b.s6_addr[k] =
      if k < prefixLen / 8 then a.s6_addr[k]
      else if k = prefixLen / 8 then a.s6_addr[k] ||| byteMask prefixLen else 0xff := by
  obtain ⟨u, hu, hbytes⟩ := modifyByte_fill (show prefixLen / 8 < 16 by omega) a.s6_addr
    (fun byte => byte ||| byteMask prefixLen) 0xff
  refine ⟨{ a with s6_addr := u }, ?_, hbytes⟩
  unfold broadcastAddress
  rw [createMask_byteMask]
  obtain ⟨bytes, hbytes, hfill⟩ := Option.bind_eq_some_iff.mp hu
  simp only [Option.bind_eq_bind, Option.bind_some, hbytes, hfill]
  rfl

theorem subnetMask_eq (h : prefixLen < 128) :
    ∃ m, subnetMask prefixLen = some m ∧ ∀ k (hk : k < 16), m.s6_addr[k] =
      if k < prefixLen / 8 then 0xff
      else if k = prefixLen / 8 then ~~~byteMask prefixLen else 0 := by
  obtain ⟨w, hw, hbyte⟩ := modifyByte_eq (show prefixLen / 8 < 16 by omega)
    (fun _ => ~~~byteMask prefixLen) (v := Vector.replicate 16 0)
  obtain ⟨u, hu, hrest⟩ := fill_eq 0xff (show 0 + prefixLen / 8 ≤ 16 by omega) w
  refine ⟨⟨AF_INET6, 0, u⟩, ?_, fun k hk => ?_⟩
  · unfold subnetMask
    rw [createMask_byteMask]
    simp only [Option.bind_eq_bind, Option.bind_some, hw, hu]
    rfl
  · show u[k] = _
    rw [hrest k hk, hbyte k hk, Vector.getElem_replicate]
    exact if_congr (by omega) rfl rfl

/-- Where bit `i` stands: its byte decides, and in the last byte of the prefix its place there. -/
theorem lt_prefix_iff (prefixLen i : Nat) : i < prefixLen ↔
    i / 8 < prefixLen / 8 ∨ i / 8 = prefixLen / 8 ∧ i % 8 < prefixLen % 8 := by
  omega

theorem not_byteMask_getMsbD (prefixLen : Nat) {j : Nat} (hj : j < 8) :
    (~~~byteMask prefixLen).getMsbD j = decide (j < prefixLen % 8) := by
  rw [BitVec.getMsbD_not, getMsbD_byteMask prefixLen hj, decide_eq_true hj, Bool.true_and,
    ← decide_not]
  exact decide_eq_decide.mpr not_le

theorem getMsbD_ones : ∀ {j : Nat}, j < 8 → (0xff : BitVec 8).getMsbD j = true := by decide

theorem subnetMask_bit (h : prefixLen < 128) : ∃ m, subnetMask prefixLen = some m ∧
    ∀ i < 128, bit m i = decide (i < prefixLen) := by
  obtain ⟨m, hm, hbytes⟩ := subnetMask_eq h
  refine ⟨m, hm, fun i hi => ?_⟩
  have hk : i / 8 < 16 := by omega
  have hj : i % 8 < 8 := by omega
  have hlt := lt_prefix_iff prefixLen i
  rw [bit_eq m hk, hbytes _ hk]
  split
  · rename_i hbefore
    rw [decide_eq_true (hlt.mpr (.inl hbefore))]
    exact getMsbD_ones hj
  · rename_i hbefore
    split
    · rename_i hlast
      rw [not_byteMask_getMsbD prefixLen hj]
      exact decide_eq_decide.mpr (by omega)
    · rename_i hlast
      rw [decide_eq_false (by omega)]
      exact BitVec.getMsbD_zero

theorem broadcastAddress_bit (a : SockaddrIn6) (h : prefixLen < 128) :
    ∃ b, broadcastAddress a prefixLen = some b ∧
      ∀ i < 128, bit b i = (decide (prefixLen ≤ i) || bit a i) := by
  obtain ⟨b, hb, hbytes⟩ := broadcastAddress_eq a h
  refine ⟨b, hb, fun i hi => ?_⟩
  have hk : i / 8 < 16 := by omega
  have hj : i % 8 < 8 := by omega
  have hlt := lt_prefix_iff prefixLen i
  rw [bit_eq b hk, bit_eq a hk, hbytes _ hk]
  split
  · rename_i hbefore
    rw [decide_eq_false (by omega), Bool.false_or]
  · rename_i hbefore
    split
    · rename_i hlast
      rw [BitVec.getMsbD_or, getMsbD_byteMask prefixLen hj, Bool.or_comm]
      congr 1
      exact decide_eq_decide.mpr (by omega)
    · rename_i hlast
      rw [decide_eq_true (by omega), Bool.true_or]
      exact getMsbD_ones hj

/-- What `networkAddress` computes: in its last byte the prefix is cleared and the rest is kept. -/
theorem networkAddress_bit (a : SockaddrIn6) (h : prefixLen < 128) :
    ∃ n, networkAddress a prefixLen = some n ∧ ∀ i < 128, bit n i =
      (decide (i / 8 < prefixLen / 8 ∨ i / 8 = prefixLen / 8 ∧ prefixLen % 8 ≤ i % 8) &&
        bit a i) := by
  obtain ⟨n, hn, hbytes⟩ := networkAddress_eq a h
  refine ⟨n, hn, fun i hi => ?_⟩
  have hk : i / 8 < 16 := by omega
  have hj : i % 8 < 8 := by omega
  rw [bit_eq n hk, bit_eq a hk, hbytes _ hk]
  split
  · rename_i hbefore
    rw [decide_eq_true (.inl hbefore), Bool.true_and]
  · rename_i hbefore
    split
    · rename_i hlast
      rw [BitVec.getMsbD_and, getMsbD_byteMask prefixLen hj, Bool.and_comm]
      congr 1
      exact decide_eq_decide.mpr (by omega)
    · rename_i hlast
      rw [decide_eq_false (by omega), Bool.false_and]
      exact BitVec.getMsbD_zero

/-- The byte that the prefix ends in is zero. -/
def LastByteZero (a : SockaddrIn6) (prefixLen : Nat) : Prop :=
  ∀ h : prefixLen / 8 < 16, a.s6_addr[prefixLen / 8] = 0

theorem lastByteZero_iff (h : prefixLen < 128) : LastByteZero a prefixLen ↔
    ∀ i < 128, i / 8 = prefixLen / 8 → bit a i = false := by
  have hk : prefixLen / 8 < 16 := by omega
  constructor
  · intro hzero i hi hbyte
    have hk' : i / 8 < 16 := by omega
    rw [bit_eq a hk']
    have hsame : a.s6_addr[i / 8] = 0 := by
      simp only [hbyte]
      exact hzero hk
    rw [hsame]
    exact BitVec.getMsbD_zero
  · intro hbits _
    refine BitVec.eq_of_getMsbD_eq fun j hj => ?_
    have hdiv : (8 * (prefixLen / 8) + j) / 8 = prefixLen / 8 := by omega
    have hmod : (8 * (prefixLen / 8) + j) % 8 = j := by omega
    have hbit := hbits (8 * (prefixLen / 8) + j) (by omega) hdiv
    rw [bit_eq a (by omega)] at hbit
    simp only [hdiv, hmod] at hbit
    rw [hbit]
    exact BitVec.getMsbD_zero.symm

/-- The functions are right if and only if the prefix leaves out a bit and ends in a byte that is
zero. -/
theorem ipv6_prefix_iff (a : SockaddrIn6) (prefixLen : Nat) :
    IPv6PrefixOk a prefixLen ↔ prefixLen < 128 ∧ LastByteZero a prefixLen := by
  constructor
  · rintro ⟨⟨n, hn, hbits⟩, -, -, -⟩
    have hlt : prefixLen < 128 := by
      by_contra hge
      rw [networkAddress_eq_none a (not_lt.mp hge)] at hn
      cases hn
    refine ⟨hlt, (lastByteZero_iff hlt).mpr fun i hi hbyte => ?_⟩
    obtain ⟨n', hn', hcode⟩ := networkAddress_bit a hlt
    obtain rfl := Option.some.inj (hn.symm.trans hn')
    -- in the last byte the code keeps the bits behind the prefix and drops those of it
    have hboth := (hbits i hi).symm.trans (hcode i hi)
    cases hbit : bit a i with
    | false => rfl
    | true =>
        rw [hbit, Bool.and_true, Bool.and_true] at hboth
        have hiff := decide_eq_decide.mp hboth
        omega
  · rintro ⟨hlt, hzero⟩
    have hbyte := (lastByteZero_iff hlt).mp hzero
    obtain ⟨n, hn, hcode⟩ := networkAddress_bit a hlt
    have hnetwork : ∀ i < 128, bit n i = (decide (i < prefixLen) && bit a i) := by
      intro i hi
      rw [hcode i hi]
      -- outside the last byte the code is right for any address
      by_cases hlast : i / 8 = prefixLen / 8
      · rw [hbyte i hi hlast, Bool.and_false, Bool.and_false]
      · congr 1
        exact decide_eq_decide.mpr (by omega)
    obtain ⟨m, hm, hmask⟩ := subnetMask_bit hlt
    refine ⟨⟨n, hn, hnetwork⟩, broadcastAddress_bit a hlt, ⟨m, hm, hmask⟩, ?_⟩
    intro n' m' hn' hm' i hi
    obtain rfl := Option.some.inj (hn.symm.trans hn')
    obtain rfl := Option.some.inj (hm.symm.trans hm')
    rw [hnetwork i hi, hmask i hi, Bool.and_comm]

/-- fe80::215:5dff:fe88:d8a -/
def linkLocal : SockaddrIn6 where
  sin6_family := AF_INET6
  sin6_port := 0
  s6_addr := #v[0xfe, 0x80, 0, 0, 0, 0, 0, 0, 0x02, 0x15, 0x5d, 0xff, 0xfe, 0x88, 0x0d, 0x8a]

/-- Of its prefix of 64 bits `networkAddress` gives one byte of the host part as well. -/
theorem ipv6_prefix_64 :
    networkAddress linkLocal 64 = some { linkLocal with
      s6_addr := #v[0xfe, 0x80, 0, 0, 0, 0, 0, 0, 0x02, 0, 0, 0, 0, 0, 0, 0] } ∧
    ¬IPv6PrefixOk linkLocal 64 := by
  have hrun : networkAddress linkLocal 64 = some { linkLocal with
      s6_addr := #v[0xfe, 0x80, 0, 0, 0, 0, 0, 0, 0x02, 0, 0, 0, 0, 0, 0, 0] } := by decide
  refine ⟨hrun, ?_⟩
  rintro ⟨⟨n, hn, hbits⟩, -, -, -⟩
  obtain rfl := Option.some.inj (hrun.symm.trans hn)
  exact absurd (hbits 70 (by decide)) (by decide)

end Gxh.Address
