import Mathlib.Data.List.Basic

/-!
# Decimal numbers in ASCII

`decimal n` is what a stream writes for an unsigned `n`. A reader goes through the digits from
the left; `decimal_induction` is the induction for it, from a number to the number with one
more digit behind it.
-/

namespace Gxh

/-- The ASCII digit of `d`. -/
def digit (d : Nat) : UInt8 := UInt8.ofNat (48 + d)

/-- `os << n`. -/
def decimal (n : Nat) : List UInt8 := (Nat.toDigits 10 n).map Char.toUInt8

theorem toUInt8_digitChar : ∀ d < 10, (Nat.digitChar d).toUInt8 = digit d := by decide

theorem decimal_of_lt {n : Nat} (h : n < 10) : decimal n = [digit n] := by
  rw [decimal, Nat.toDigits_of_lt_base h, List.map_singleton, toUInt8_digitChar n h]

theorem decimal_of_le {n : Nat} (h : 10 ≤ n) :
    decimal n = decimal (n / 10) ++ [digit (n % 10)] := by
  rw [decimal, Nat.toDigits_of_base_le (by decide) h, List.map_append, List.map_singleton,
    toUInt8_digitChar _ (Nat.mod_lt _ (by decide))]
  rfl

/-- From a number to the number with one more digit. -/
theorem decimal_induction {P : Nat → Prop} (one : ∀ n < 10, P n)
    (more : ∀ n ≥ 10, P (n / 10) → P n) (n : Nat) : P n := by
  induction n using Nat.strongRecOn with
  | ind n ih =>
      by_cases h : n < 10
      · exact one n h
      · exact more n (by omega) (ih (n / 10) (by omega))

theorem decimal_ne_nil (n : Nat) : decimal n ≠ [] := by
  rw [decimal, ne_eq, List.map_eq_nil_iff]
  exact Nat.toDigits_ne_nil

/-- The value of an ASCII digit. -/
def digitValue (c : UInt8) : Option Nat := if 48 ≤ c ∧ c ≤ 57 then some (c.toNat - 48) else none

theorem digitValue_digit : ∀ d < 10, digitValue (digit d) = some d := by decide

/-- Digits after a number read so far. -/
def readDigits (acc : Nat) : List UInt8 → Option Nat
  | [] => some acc
  | c :: rest => (digitValue c).bind fun d => readDigits (acc * 10 + d) rest

/-- One or more digits, and nothing else. -/
def ofDecimal (l : List UInt8) : Option Nat := if l = [] then none else readDigits 0 l

theorem readDigits_append (acc : Nat) (l r : List UInt8) :
    readDigits acc (l ++ r) = (readDigits acc l).bind fun n => readDigits n r := by
  induction l generalizing acc with
  | nil => rfl
  | cons c rest ih =>
      simp only [List.cons_append, readDigits]
      cases digitValue c with
      | none => rfl
      | some d => exact ih _

theorem readDigits_decimal (n : Nat) : readDigits 0 (decimal n) = some n := by
  induction n using decimal_induction with
  | one n h => simp [decimal_of_lt h, readDigits, digitValue_digit n h]
  | more n h ih =>
      have hmod : n % 10 < 10 := Nat.mod_lt _ (by decide)
      rw [decimal_of_le h, readDigits_append, ih]
      simp only [Option.bind_some, readDigits, digitValue_digit _ hmod]
      congr 1
      omega

theorem ofDecimal_decimal (n : Nat) : ofDecimal (decimal n) = some n := by
  rw [ofDecimal, if_neg (decimal_ne_nil n), readDigits_decimal]

/-- All the bytes of a number are digits. -/
theorem digit_of_mem_decimal {n : Nat} {c : UInt8} (h : c ∈ decimal n) : ∃ d < 10, c = digit d := by
  induction n using decimal_induction with
  | one n hn =>
      rw [decimal_of_lt hn, List.mem_singleton] at h
      exact ⟨n, hn, h⟩
  | more n hn ih =>
      rw [decimal_of_le hn, List.mem_append, List.mem_singleton] at h
      rcases h with hleft | hlast
      · exact ih hleft
      · exact ⟨n % 10, Nat.mod_lt _ (by decide), hlast⟩

end Gxh
