import Gxh.ByteArray.Codec
import Gxh.Lib.Signed
import Mathlib.Logic.Equiv.Defs

/-!
# Zigzag coding

`EncodeZigzag32` and `EncodeZigzag64` with the signed arithmetic they do before the conversion to
an unsigned type: a step whose result the signed type cannot hold is undefined.

* `zigzag` — the numbering of the integers 0, -1, 1, -2, … that the functions are for;
* `toInt_decodeZigzag`, `encodeZigzag_eq` — they compute it, the decoder for every code and the
  encoder for every value whose step is defined;
* `zigzag_iff` — the step is not defined for the least value, nor for the upper half of those that
  are not negative.
-/

namespace Gxh.ByteArray

/-! ## The numbering -/

/-- The number of an integer. -/
def zigzagNumber (i : Int) : Nat := if i < 0 then (-i * 2 - 1).toNat else (i * 2).toNat

/-- The integer with a number. -/
def zigzagInt (n : Nat) : Int := if n % 2 = 0 then (n / 2 : Nat) else -1 - (n / 2 : Nat)

def zigzag : Int ≃ Nat where
  toFun := zigzagNumber
  invFun := zigzagInt
  left_inv := by
    intro i
    unfold zigzagInt zigzagNumber
    split <;> split <;> omega
  right_inv := by
    intro n
    unfold zigzagNumber zigzagInt
    split <;> split <;> omega

/-! ## Words -/

section Words

variable {w : Nat}

/-- `-v` and `v * 2` are computed in the signed type, the rest in the unsigned one. -/
def encodeZigzag (v : BitVec w) : Option (BitVec w) :=
  if v.toInt < 0 then (signed (2 ^ (w - 1)) (-v.toInt)).map fun n => BitVec.ofInt w n * 2#w - 1#w
  else (signed (2 ^ (w - 1)) (v.toInt * 2)).map (BitVec.ofInt w)

def decodeZigzag (c : BitVec w) : BitVec w := c >>> 1 ^^^ -(c &&& 1#w)

/-- The result of the signed step is in the range of its type. -/
def StepFits (v : BitVec w) : Prop :=
  (if v.toInt < 0 then -v.toInt else v.toInt * 2) < 2 ^ (w - 1)

theorem and_one (hw : 0 < w) (c : BitVec w) : (c &&& 1#w).toNat = c.toNat % 2 := by
  rw [BitVec.toNat_and, BitVec.toNat_one hw, Nat.and_one_is_mod]

theorem toInt_decodeZigzag (hw : 0 < w) (c : BitVec w) :
    (decodeZigzag c).toInt = zigzag.symm c.toNat := by
  have hhalf : (c >>> 1).toNat = c.toNat / 2 := by
    rw [BitVec.toNat_ushiftRight, Nat.shiftRight_one]
  have hlt : c.toNat < 2 ^ w := c.isLt
  show _ = zigzagInt c.toNat
  unfold decodeZigzag zigzagInt
  by_cases heven : c.toNat % 2 = 0
  -- an even code is the half of it
  · have hbit : c &&& 1#w = 0#w := by
      apply BitVec.eq_of_toNat_eq
      rw [and_one hw, heven, BitVec.toNat_zero]
    rw [if_pos heven, hbit, BitVec.neg_zero, BitVec.xor_zero, BitVec.toInt_eq_toNat_cond, hhalf,
      if_pos (by omega)]
  -- an odd one is the complement of the half
  · have hbit : c &&& 1#w = 1#w := by
      apply BitVec.eq_of_toNat_eq
      rw [and_one hw, BitVec.toNat_one hw]
      omega
    rw [if_neg heven, hbit, BitVec.neg_one_eq_allOnes, BitVec.xor_allOnes,
      BitVec.toInt_eq_toNat_cond, BitVec.toNat_not, hhalf, if_neg (by omega)]
    omega

theorem ofNat_zigzag (v : BitVec w) : BitVec.ofNat w (zigzag v.toInt) =
    if v.toInt < 0 then BitVec.ofInt w (-v.toInt) * 2#w - 1#w else BitVec.ofInt w (v.toInt * 2) := by
  show BitVec.ofNat w (zigzagNumber v.toInt) = _
  rw [← BitVec.ofInt_natCast, zigzagNumber]
  split
  · rename_i hneg
    rw [Int.toNat_of_nonneg (by omega), Int.sub_eq_add_neg, BitVec.ofInt_add, BitVec.ofInt_mul,
      BitVec.ofInt_neg, BitVec.ofInt_neg, BitVec.sub_eq_add_neg]
    rfl
  · rename_i hpos
    rw [Int.toNat_of_nonneg (by omega)]

/-- The encoder gives the number where its step is defined. -/
theorem encodeZigzag_eq (v : BitVec w) (h : StepFits v) :
    encodeZigzag v = some (BitVec.ofNat w (zigzag v.toInt)) := by
  have hlt : v.toInt < 2 ^ (w - 1) := BitVec.toInt_lt
  unfold StepFits at h
  rw [ofNat_zigzag, encodeZigzag]
  split
  · rename_i hneg
    rw [if_pos hneg] at h
    rw [signed_of_lt (by omega) h]
    rfl
  · rename_i hpos
    rw [if_neg hpos] at h
    rw [signed_of_lt (by omega) h]
    rfl

theorem encodeZigzag_eq_none (v : BitVec w) (h : ¬ StepFits v) : encodeZigzag v = none := by
  unfold StepFits at h
  unfold encodeZigzag
  split
  · rename_i hneg
    rw [if_pos hneg] at h
    rw [signed_of_le (by omega)]
    rfl
  · rename_i hpos
    rw [if_neg hpos] at h
    rw [signed_of_le (by omega)]
    rfl

/-- The values whose step is defined. -/
theorem stepFits_iff (v : BitVec w) :
    StepFits v ↔ -2 ^ (w - 1) < v.toInt ∧ v.toInt * 2 < 2 ^ (w - 1) := by
  have hpos : (0 : Int) < 2 ^ (w - 1) := Int.pow_pos (by decide)
  unfold StepFits
  split <;> omega

/-- The codes whose value has a defined step. -/
theorem stepFits_decodeZigzag_iff (hw : 0 < w) (c : BitVec w) :
    StepFits (decodeZigzag c) ↔
      (c.toNat % 2 = 0 → c.toNat < 2 ^ (w - 1)) ∧ c.toNat ≠ 2 ^ w - 1 := by
  have hpow : 2 ^ (w - 1) * 2 = 2 ^ w := Nat.two_pow_pred_mul_two hw
  have hcast : (2 : Int) ^ (w - 1) = ((2 ^ (w - 1) : Nat) : Int) := by norm_cast
  have hlt : c.toNat < 2 ^ w := c.isLt
  rw [stepFits_iff, toInt_decodeZigzag hw, hcast]
  show -_ < zigzagInt c.toNat ∧ zigzagInt c.toNat * 2 < _ ↔ _
  unfold zigzagInt
  split <;> omega

/-- Decoding gives the value back. -/
theorem decodeZigzag_ofNat (hw : 0 < w) (v : BitVec w) :
    decodeZigzag (BitVec.ofNat w (zigzag v.toInt)) = v := by
  apply BitVec.eq_of_toInt_eq
  have hlt : zigzagNumber v.toInt < 2 ^ w := by
    have hupper : 2 * v.toInt < 2 ^ w := BitVec.two_mul_toInt_lt
    have hlower : -2 ^ w ≤ 2 * v.toInt := BitVec.le_two_mul_toInt
    have hcast : (2 : Int) ^ w = ((2 ^ w : Nat) : Int) := by norm_cast
    unfold zigzagNumber
    split <;> omega
  rw [toInt_decodeZigzag hw, BitVec.toNat_ofNat]
  show zigzag.symm (zigzagNumber v.toInt % 2 ^ w) = _
  rw [Nat.mod_eq_of_lt hlt]
  exact zigzag.symm_apply_apply v.toInt

theorem ofNat_decodeZigzag (hw : 0 < w) (c : BitVec w) :
    BitVec.ofNat w (zigzag (decodeZigzag c).toInt) = c := by
  rw [toInt_decodeZigzag hw, zigzag.apply_symm_apply]
  apply BitVec.eq_of_toNat_eq
  rw [BitVec.toNat_ofNat, Nat.mod_eq_of_lt c.isLt]

/-- For a value `v` and a code `c` of a type with the values from `-half` to `half - 1`: the signed
result in the branch taken is one of them, and the functions undo each other. -/
structure ZigzagOk {α β : Type} (half : Int) (toInt : α → Int) (encode : α → Option β)
    (decode : β → α) (v : α) (c : β) : Prop where
  step : ∃ i, signed half (if toInt v < 0 then -toInt v else toInt v * 2) = some i
  decode_encode : ∃ code, encode v = some code ∧ decode code = v
  encode_decode : encode (decode c) = some c

theorem zigzagOk_iff (hw : 0 < w) (v c : BitVec w) :
    ZigzagOk (2 ^ (w - 1)) BitVec.toInt encodeZigzag decodeZigzag v c ↔
      (-2 ^ (w - 1) < v.toInt ∧ v.toInt * 2 < 2 ^ (w - 1)) ∧
      (c.toNat % 2 = 0 → c.toNat < 2 ^ (w - 1)) ∧ c.toNat ≠ 2 ^ w - 1 := by
  rw [← stepFits_iff, ← stepFits_decodeZigzag_iff hw]
  constructor
  · intro h
    refine ⟨?_, ?_⟩
    · by_contra hno
      obtain ⟨code, hcode, -⟩ := h.decode_encode
      rw [encodeZigzag_eq_none v hno] at hcode
      cases hcode
    · by_contra hno
      have hcode := h.encode_decode
      rw [encodeZigzag_eq_none _ hno] at hcode
      cases hcode
  · rintro ⟨hv, hc⟩
    refine ⟨?_, ⟨_, encodeZigzag_eq v hv, decodeZigzag_ofNat hw v⟩, ?_⟩
    · exact ⟨_, signed_of_lt (by split <;> omega) hv⟩
    · rw [encodeZigzag_eq _ hc, ofNat_decodeZigzag hw]

/-- Every code is that of a value, and every value has one code. -/
theorem decodeZigzag_bijective (hw : 0 < w) :
    Function.Bijective (decodeZigzag : BitVec w → BitVec w) :=
  Function.bijective_iff_has_inverse.mpr
    ⟨fun v => BitVec.ofNat w (zigzag v.toInt), ofNat_decodeZigzag hw, decodeZigzag_ofNat hw⟩

end Words

/-! ## The functions of the source -/

/-- `EncodeZigzag32`, undefined where its signed arithmetic is. -/
def signedZigzag32 (v : Int32) : Option UInt32 := (encodeZigzag v.toBitVec).map UInt32.ofBitVec

/-- `EncodeZigzag64`, undefined where its signed arithmetic is. -/
def signedZigzag64 (v : Int64) : Option UInt64 := (encodeZigzag v.toBitVec).map UInt64.ofBitVec

theorem encodeZigzag32_toBitVec (v : Int32) :
    (encodeZigzag32 v).toBitVec = BitVec.ofNat 32 (zigzag v.toInt) := by
  show _ = BitVec.ofNat 32 (zigzag v.toBitVec.toInt)
  have hneg : v < 0 ↔ v.toBitVec.toInt < 0 := Int32.lt_iff_toInt_lt
  rw [ofNat_zigzag, BitVec.ofInt_neg, BitVec.ofInt_mul, BitVec.ofInt_toInt]
  unfold encodeZigzag32
  by_cases h : v < 0
  · rw [if_pos h, if_pos (hneg.mp h)]
    rfl
  · rw [if_neg h, if_neg (mt hneg.mpr h)]
    rfl

theorem encodeZigzag64_toBitVec (v : Int64) :
    (encodeZigzag64 v).toBitVec = BitVec.ofNat 64 (zigzag v.toInt) := by
  show _ = BitVec.ofNat 64 (zigzag v.toBitVec.toInt)
  have hneg : v < 0 ↔ v.toBitVec.toInt < 0 := Int64.lt_iff_toInt_lt
  rw [ofNat_zigzag, BitVec.ofInt_neg, BitVec.ofInt_mul, BitVec.ofInt_toInt]
  unfold encodeZigzag64
  by_cases h : v < 0
  · rw [if_pos h, if_pos (hneg.mp h)]
    rfl
  · rw [if_neg h, if_neg (mt hneg.mpr h)]
    rfl

/-- Where the encoder is defined it gives what arithmetic that wraps around gives. -/
theorem signedZigzag32_eq (v : Int32) (h : StepFits v.toBitVec) :
    signedZigzag32 v = some (encodeZigzag32 v) := by
  rw [signedZigzag32, encodeZigzag_eq _ h, Option.map_some, Option.some.injEq]
  exact UInt32.eq_of_toBitVec_eq (encodeZigzag32_toBitVec v).symm

theorem signedZigzag64_eq (v : Int64) (h : StepFits v.toBitVec) :
    signedZigzag64 v = some (encodeZigzag64 v) := by
  rw [signedZigzag64, encodeZigzag_eq _ h, Option.map_some, Option.some.injEq]
  exact UInt64.eq_of_toBitVec_eq (encodeZigzag64_toBitVec v).symm

/-! ## The two widths -/

theorem signedZigzag32_eq_some {v : Int32} {c : UInt32} :
    signedZigzag32 v = some c ↔ encodeZigzag v.toBitVec = some c.toBitVec := by
  rw [signedZigzag32, Option.map_eq_some_iff]
  constructor
  · rintro ⟨b, hb, rfl⟩
    exact hb
  · intro h
    exact ⟨_, h, rfl⟩

theorem signedZigzag64_eq_some {v : Int64} {c : UInt64} :
    signedZigzag64 v = some c ↔ encodeZigzag v.toBitVec = some c.toBitVec := by
  rw [signedZigzag64, Option.map_eq_some_iff]
  constructor
  · rintro ⟨b, hb, rfl⟩
    exact hb
  · intro h
    exact ⟨_, h, rfl⟩

theorem zigzagOk32_iff (v : Int32) (c : UInt32) :
    ZigzagOk half32 Int32.toInt signedZigzag32 decodeZigzag32 v c ↔
      ZigzagOk (2 ^ (32 - 1)) BitVec.toInt encodeZigzag decodeZigzag v.toBitVec c.toBitVec := by
  constructor
  · intro h
    have hstep := h.step
    obtain ⟨code, hcode, hv⟩ := h.decode_encode
    have hvalue := congrArg Int32.toBitVec hv
    have hencode := signedZigzag32_eq_some.mp h.encode_decode
    exact ⟨hstep, ⟨code.toBitVec, signedZigzag32_eq_some.mp hcode, hvalue⟩, hencode⟩
  · intro h
    obtain ⟨b, hb, hv⟩ := h.decode_encode
    exact ⟨h.step, ⟨.ofBitVec b, signedZigzag32_eq_some.mpr hb, Int32.toBitVec.inj hv⟩,
      signedZigzag32_eq_some.mpr h.encode_decode⟩

theorem zigzagOk64_iff (v : Int64) (c : UInt64) :
    ZigzagOk half64 Int64.toInt signedZigzag64 decodeZigzag64 v c ↔
      ZigzagOk (2 ^ (64 - 1)) BitVec.toInt encodeZigzag decodeZigzag v.toBitVec c.toBitVec := by
  constructor
  · intro h
    have hstep := h.step
    obtain ⟨code, hcode, hv⟩ := h.decode_encode
    have hvalue := congrArg Int64.toBitVec hv
    have hencode := signedZigzag64_eq_some.mp h.encode_decode
    exact ⟨hstep, ⟨code.toBitVec, signedZigzag64_eq_some.mp hcode, hvalue⟩, hencode⟩
  · intro h
    obtain ⟨b, hb, hv⟩ := h.decode_encode
    exact ⟨h.step, ⟨.ofBitVec b, signedZigzag64_eq_some.mpr hb, Int64.toBitVec.inj hv⟩,
      signedZigzag64_eq_some.mpr h.encode_decode⟩

/-- Both widths are right for the values above the least one and below a quarter of the range, and
for the codes of these values. -/
theorem zigzag_iff (v : Int32) (c : UInt32) (v' : Int64) (c' : UInt64) :
    (ZigzagOk half32 Int32.toInt signedZigzag32 decodeZigzag32 v c ↔
      (-2147483648 < v.toInt ∧ v.toInt < 1073741824) ∧
      (c.toNat % 2 = 0 → c.toNat < 2147483648) ∧ c.toNat ≠ 4294967295) ∧
    (ZigzagOk half64 Int64.toInt signedZigzag64 decodeZigzag64 v' c' ↔
      (-9223372036854775808 < v'.toInt ∧ v'.toInt < 4611686018427387904) ∧
      (c'.toNat % 2 = 0 → c'.toNat < 9223372036854775808) ∧
      c'.toNat ≠ 18446744073709551615) := by
  rw [zigzagOk32_iff, zigzagOk64_iff, zigzagOk_iff (by decide), zigzagOk_iff (by decide)]
  refine ⟨and_congr (and_congr_right fun _ => ?_) Iff.rfl,
    and_congr (and_congr_right fun _ => ?_) Iff.rfl⟩
  · show v.toInt * 2 < 2147483648 ↔ _
    omega
  · show v'.toInt * 2 < 9223372036854775808 ↔ _
    omega

/-- Twice 2^30 is no `int`. -/
theorem zigzag_two_pow_thirty : signedZigzag32 1073741824 = none ∧
    ¬ ∀ v c, ZigzagOk half32 Int32.toInt signedZigzag32 decodeZigzag32 v c := by
  have hnone : signedZigzag32 1073741824 = none := by decide
  refine ⟨hnone, fun h => ?_⟩
  obtain ⟨code, hcode, -⟩ := (h 1073741824 0).decode_encode
  rw [hnone] at hcode
  cases hcode

end Gxh.ByteArray
