import Mathlib.Data.Nat.Log
import Mathlib.Tactic.Ring

/-!
# Division of two sizes in double precision

`ceil(1.0 * a / b)` for `a` below `2^53`: the quotient rounded to 53 significant bits, ties to
even, and then rounded up. `ceilQuot_eq` says that it is the exact ceiling of the quotient,
since the error of the division is smaller than the distance of `a / b` to an integer.
-/

namespace Gxh

/-- `n / d` rounded to the nearest integer, ties to even. -/
def roundHalfEven (n d : Nat) : Nat :=
  if 2 * (n % d) < d then n / d
  else if d < 2 * (n % d) then n / d + 1
  else if n / d % 2 = 0 then n / d else n / d + 1

/-- The power of two that brings `a / b` to 53 significant bits. -/
def quotScale (a b : Nat) : Nat := Nat.clog 2 ((2 ^ 52 * b + a - 1) / a)

/-- `ceil(1.0 * a / b)`. -/
def ceilQuot (a b : Nat) : Nat :=
  if a = 0 then 0
  else
    let k := quotScale a b
    (roundHalfEven (a * 2 ^ k) b + 2 ^ k - 1) / 2 ^ k

theorem roundHalfEven_mul (q : Nat) {d : Nat} (hd : 0 < d) : roundHalfEven (q * d) d = q := by
  unfold roundHalfEven
  rw [Nat.mul_mod_left, if_pos (by omega), Nat.mul_div_cancel _ hd]

theorem roundHalfEven_le {n d m : Nat} (hd : 0 < d) (h : n ≤ m * d) : roundHalfEven n d ≤ m := by
  have hdiv : n / d ≤ m := Nat.div_le_of_le_mul (by rwa [Nat.mul_comm])
  have hsplit := Nat.div_add_mod n d
  by_cases hlt : n / d < m
  · unfold roundHalfEven
    split
    · omega
    · split
      · omega
      · split <;> omega
  · -- the quotient is `m` and there is no remainder
    have heq : n / d = m := by omega
    rw [heq] at hsplit
    have hzero : n % d = 0 := by
      rw [Nat.mul_comm d m] at hsplit
      omega
    unfold roundHalfEven
    rw [hzero, if_pos (by omega), heq]

theorem lt_roundHalfEven {n d m : Nat} (hd : 0 < d) (h : 2 * (m * d) + d < 2 * n) :
    m < roundHalfEven n d := by
  have hsplit := Nat.div_add_mod n d
  have hmod := Nat.mod_lt n hd
  have hdiv : m ≤ n / d := by
    rw [Nat.le_div_iff_mul_le hd]
    omega
  by_cases hlt : m < n / d
  · unfold roundHalfEven
    split
    · exact hlt
    · split
      · omega
      · split <;> omega
  · have heq : n / d = m := by omega
    rw [heq, Nat.mul_comm d m] at hsplit
    unfold roundHalfEven
    rw [if_neg (by omega), if_pos (by omega), heq]
    omega

/-- At 53 significant bits the scale exceeds half of the divisor. -/
theorem lt_two_pow_quotScale {a b : Nat} (ha : 0 < a) (h53 : a < 2 ^ 53) (hb : 0 < b) :
    b < 2 * 2 ^ quotScale a b := by
  have hle : (2 ^ 52 * b + a - 1) / a ≤ 2 ^ quotScale a b := Nat.le_pow_clog (by decide) _
  have hmul : 2 ^ 52 * b ≤ a * 2 ^ quotScale a b := by
    have hceil : 2 ^ 52 * b ≤ a * ((2 ^ 52 * b + a - 1) / a) := by
      have hsplit := Nat.div_add_mod (2 ^ 52 * b + a - 1) a
      have hmod := Nat.mod_lt (2 ^ 52 * b + a - 1) ha
      omega
    exact hceil.trans (Nat.mul_le_mul_left a hle)
  by_contra hge
  push Not at hge
  have hupper : a * 2 ^ quotScale a b ≤ (2 ^ 53 - 1) * 2 ^ quotScale a b :=
    Nat.mul_le_mul_right _ (by omega)
  have hpos : 0 < 2 ^ quotScale a b := Nat.two_pow_pos _
  omega

/-- Below `2^53` the double-precision quotient rounds up to the exact ceiling. -/
theorem ceilQuot_eq {a b : Nat} (h53 : a < 2 ^ 53) (hb : 0 < b) :
    ceilQuot a b = (a + b - 1) / b := by
  unfold ceilQuot
  split
  · rename_i hzero
    rw [hzero, Nat.zero_add, Nat.div_eq_of_lt (by omega)]
  · rename_i hne
    have ha : 0 < a := Nat.pos_of_ne_zero hne
    have hscale := lt_two_pow_quotScale ha h53 hb
    dsimp only
    generalize hk : 2 ^ quotScale a b = p at hscale ⊢
    have hp : 0 < p := by
      rw [← hk]
      exact Nat.two_pow_pos _
    have hsplit := Nat.div_add_mod a b
    have hmod := Nat.mod_lt a hb
    generalize a / b = q at hsplit
    by_cases hrem : a % b = 0
    · -- an integer quotient is represented exactly
      have haq : a = b * q := by omega
      have hexact : roundHalfEven (a * p) b = q * p := by
        rw [haq, show b * q * p = q * p * b by ring]
        exact roundHalfEven_mul _ hb
      rw [hexact, haq, show q * p + p - 1 = p - 1 + p * q by rw [Nat.mul_comm q p]; omega,
        show b * q + b - 1 = b - 1 + b * q by omega, Nat.add_mul_div_left _ _ hp,
        Nat.add_mul_div_left _ _ hb, Nat.div_eq_of_lt (by omega), Nat.div_eq_of_lt (by omega)]
    · -- otherwise the rounded quotient stays between the two integers
      have hupper : roundHalfEven (a * p) b ≤ (q + 1) * p := by
        refine roundHalfEven_le hb ?_
        have hle : a ≤ b * (q + 1) := by
          rw [Nat.mul_add]
          omega
        calc a * p ≤ b * (q + 1) * p := Nat.mul_le_mul_right p hle
          _ = (q + 1) * p * b := by ring
      have hlower : q * p < roundHalfEven (a * p) b := by
        refine lt_roundHalfEven hb ?_
        have hle : b * q + 1 ≤ a := by omega
        calc 2 * (q * p * b) + b < 2 * (q * p * b) + 2 * p := by omega
          _ = 2 * ((b * q + 1) * p) := by ring
          _ ≤ 2 * (a * p) := Nat.mul_le_mul_left 2 (Nat.mul_le_mul_right p hle)
      generalize roundHalfEven (a * p) b = m at hupper hlower
      have hleft : (m + p - 1) / p = q + 1 := by
        rw [Nat.div_eq_iff hp]
        constructor
        · rw [Nat.add_mul]
          omega
        · rw [Nat.add_mul] at hupper ⊢
          omega
      have hright : (a + b - 1) / b = q + 1 := by
        rw [Nat.div_eq_iff hb]
        constructor
        · rw [Nat.add_mul, Nat.mul_comm q b]
          omega
        · rw [Nat.add_mul, Nat.mul_comm q b]
          omega
      rw [hleft, hright]

end Gxh
