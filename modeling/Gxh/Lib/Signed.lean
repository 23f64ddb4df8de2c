import Gxh.Lib.Word

/-!
# Signed machine arithmetic

Values of `int` and `long` are integers. A result outside the range of its type is undefined and
`none` here; a conversion to another type keeps the low bits.
-/

namespace Gxh

/-- One more than the largest `int`. -/
abbrev half32 : Int := 2147483648

/-- One more than the largest `long`. -/
abbrev half64 : Int := 9223372036854775808

/-- The result of signed arithmetic, in a type of the range from `-half` to `half - 1`. -/
def signed (half i : Int) : Option Int := if -half ≤ i ∧ i < half then some i else none

theorem signed_eq_some {half i j : Int} :
    signed half i = some j ↔ (-half ≤ i ∧ i < half) ∧ i = j := by
  unfold signed
  split
  · rename_i h
    rw [Option.some.injEq]
    exact (and_iff_right h).symm
  · rename_i h
    exact iff_of_false nofun fun hi => h hi.1

theorem signed_of_lt {half i : Int} (hnonneg : 0 ≤ i) (h : i < half) : signed half i = some i :=
  signed_eq_some.mpr ⟨⟨by omega, h⟩, rfl⟩

theorem signed_of_le {half i : Int} (h : half ≤ i) : signed half i = none :=
  if_neg (by omega)

/-- Conversion of a signed value to `uint64_t`. -/
def ofInt (i : Int) : Nat := (i % 18446744073709551616).toNat

theorem ofInt_of_nonneg {i : Int} (hnonneg : 0 ≤ i) (h : i < half64) : (ofInt i : Int) = i := by
  unfold ofInt half64 at *
  omega

/-- Conversion of a `long` to `int`. -/
def longToInt (i : Int) : Int := toInt (ofInt i)

/-- The conversion to `int` and on to `uint64_t` keeps the low 32 bits. -/
theorem ofInt_longToInt_emod {i : Int} (hnonneg : 0 ≤ i) (h : i < half64) :
    (ofInt (longToInt i) : Int) % 4294967296 = i % 4294967296 := by
  have hword := ofInt_of_nonneg hnonneg h
  unfold longToInt toInt
  split
  · unfold ofInt half64 at *
    omega
  · unfold ofInt half64 at *
    omega

/-- The conversion to `int` and on to `uint64_t` keeps exactly the values of `int` range. -/
theorem ofInt_longToInt_eq_iff {i : Int} (hnonneg : 0 ≤ i) (h : i < half64) :
    (ofInt (longToInt i) : Int) = i ↔ i < half32 := by
  have hword := ofInt_of_nonneg hnonneg h
  have hle := toInt_le (ofInt i)
  unfold longToInt
  constructor
  · intro heq
    by_contra hge
    -- the `int` is below `i`, and if it is negative it comes back as a word of the upper half
    have hint : toInt (ofInt i) < half32 ∧ -half32 ≤ toInt (ofInt i) := by
      unfold toInt half32
      split <;> omega
    unfold ofInt half32 half64 at *
    omega
  · intro hlt
    rw [toInt_of_lt (by unfold half32 at hlt; omega), hword]
    exact hword

end Gxh
