import Mathlib.Data.List.Basic
import Mathlib.Tactic.Ring

/-!
# Bytes of a number, and writing into the middle of a list

* `toBytes k n` are the `k` low bytes of `n`, the lowest first, and `ofBytes` reads them back;
* `splice l i x` overwrites `l` from position `i` on with `x`, and `Holds` says that data
  stand somewhere in a list;
* the zigzag code of a two's-complement word and its inverse.
-/

namespace Gxh

/-! ## Numbers -/

/-- A fact about every byte, from the 256 cases. -/
theorem forall_byte {P : UInt8 → Prop} (h : ∀ n : Fin 256, P (UInt8.ofNat n)) (c : UInt8) :
    P c := by
  have hc := h ⟨c.toNat, c.toNat_lt⟩
  rwa [UInt8.ofNat_toNat] at hc

/-- The `k` low bytes, the lowest first. -/
def toBytes : Nat → Nat → List UInt8
  | 0, _ => []
  | k + 1, n => UInt8.ofNat (n % 256) :: toBytes k (n / 256)

/-- The number with these bytes, the lowest first. -/
def ofBytes : List UInt8 → Nat
  | [] => 0
  | b :: rest => b.toNat + 256 * ofBytes rest

@[simp] theorem length_toBytes (k n : Nat) : (toBytes k n).length = k := by
  induction k generalizing n with
  | zero => rfl
  | succ k ih => simp [toBytes, ih]

theorem ofBytes_lt (l : List UInt8) : ofBytes l < 256 ^ l.length := by
  induction l with
  | nil => simp [ofBytes]
  | cons b rest ih =>
      have hb : b.toNat < 256 := b.toNat_lt
      rw [ofBytes, List.length_cons, Nat.pow_succ]
      omega

theorem ofBytes_toBytes {k n : Nat} (h : n < 256 ^ k) : ofBytes (toBytes k n) = n := by
  induction k generalizing n with
  | zero =>
      rw [Nat.pow_zero] at h
      simp only [toBytes, ofBytes]
      omega
  | succ k ih =>
      rw [Nat.pow_succ] at h
      have hdiv : n / 256 < 256 ^ k := by omega
      have hbyte : (UInt8.ofNat (n % 256)).toNat = n % 256 :=
        UInt8.toNat_ofNat_of_lt' (Nat.mod_lt _ (by decide))
      rw [toBytes, ofBytes, ih hdiv, hbyte]
      omega

theorem toBytes_ofBytes (l : List UInt8) : toBytes l.length (ofBytes l) = l := by
  induction l with
  | nil => rfl
  | cons b rest ih =>
      have hb : b.toNat < 256 := b.toNat_lt
      have hmod : (b.toNat + 256 * ofBytes rest) % 256 = b.toNat := by omega
      have hdiv : (b.toNat + 256 * ofBytes rest) / 256 = ofBytes rest := by omega
      rw [List.length_cons, ofBytes, toBytes, hmod, hdiv, ih, UInt8.ofNat_toNat]

/-! ## Writing into a list -/

variable {α : Type}

/-- `l` with the elements from position `i` on replaced by `x`. -/
def splice (l : List α) (i : Nat) (x : List α) : List α := l.take i ++ x ++ l.drop (i + x.length)

theorem splice_nil (l : List α) (i : Nat) : splice l i [] = l := by
  unfold splice
  rw [List.append_nil, List.length_nil, Nat.add_zero, List.take_append_drop]

theorem length_splice {l x : List α} {i : Nat} (h : i + x.length ≤ l.length) :
    (splice l i x).length = l.length := by
  simp only [splice, List.length_append, List.length_take, List.length_drop]
  omega

/-- What was written is read back. -/
theorem slice_splice {l x : List α} {i : Nat} (h : i ≤ l.length) :
    ((splice l i x).drop i).take x.length = x := by
  have hlen : (l.take i).length = i := by
    rw [List.length_take]
    omega
  unfold splice
  rw [List.append_assoc, List.drop_append, hlen, List.drop_of_length_le (by omega), Nat.sub_self,
    List.nil_append, List.drop_zero, List.take_left]

/-- Positions before and behind the written ones keep their elements. -/
theorem getElem?_splice {l x : List α} {i j : Nat} (h : i ≤ l.length)
    (hj : j < i ∨ i + x.length ≤ j) : (splice l i x)[j]? = l[j]? := by
  have hlen : (l.take i).length = i := by
    rw [List.length_take]
    omega
  unfold splice
  rw [List.append_assoc]
  rcases hj with hlt | hge
  · rw [List.getElem?_append_left (by omega), List.getElem?_take_of_lt hlt]
  · rw [List.getElem?_append_right (by omega), hlen, List.getElem?_append_right (by omega),
      List.getElem?_drop]
    congr 1
    omega

/-- Writing inside the first part of a list. -/
theorem splice_append {l l' x : List α} {i : Nat} (h : i + x.length ≤ l.length) :
    splice (l ++ l') i x = splice l i x ++ l' := by
  unfold splice
  rw [List.take_append_of_le_length (by omega), List.drop_append_of_le_length h,
    ← List.append_assoc]

/-- Writing across the end of the first part. -/
theorem splice_append_split {l l' x y : List α} {i : Nat} (h : i + x.length = l.length) :
    splice (l ++ l') i (x ++ y) = splice l i x ++ splice l' 0 y := by
  have hdrop : l.drop (i + x.length) = [] := List.drop_of_length_le (by omega)
  have hbehind : (l ++ l').drop (i + (x ++ y).length) = l'.drop y.length := by
    rw [List.length_append, ← Nat.add_assoc, List.drop_append, List.drop_of_length_le (by omega),
      List.nil_append]
    congr 1
    omega
  unfold splice
  rw [hbehind, hdrop, List.take_append_of_le_length (by omega), List.append_nil, List.take_zero,
    List.nil_append, Nat.zero_add]
  simp only [List.append_assoc]

/-- Writing into the second part. -/
theorem splice_append_right {l l' x : List α} {i : Nat} :
    splice (l ++ l') (l.length + i) x = l ++ splice l' i x := by
  unfold splice
  rw [List.take_append, List.drop_append, List.take_of_length_le (by omega),
    List.drop_of_length_le (by omega), List.nil_append, Nat.add_sub_cancel_left,
    show l.length + i + x.length - l.length = i + x.length by omega]
  simp only [List.append_assoc]

/-- The start of a list that was written into, up to the old end or the end of the data. -/
theorem take_splice {l x : List α} {i k : Nat} (hi : i ≤ k) (hk : k ≤ l.length) :
    (splice l i x).take (max k (i + x.length)) = splice (l.take k) i x := by
  have hlen : (l.take i ++ x).length = i + x.length := by
    rw [List.length_append, List.length_take, Nat.min_eq_left (by omega)]
  unfold splice
  rw [List.take_append, hlen, List.take_of_length_le (by omega), List.take_take,
    Nat.min_eq_left hi, List.drop_take]
  congr 2
  omega

/-- Data written one after the other are written in one piece. -/
theorem splice_splice {l x y : List α} {i : Nat} (hi : i ≤ l.length) :
    splice (splice l i x) (i + x.length) y = splice l i (x ++ y) := by
  have hlen : (l.take i ++ x).length = i + x.length := by
    rw [List.length_append, List.length_take, Nat.min_eq_left hi]
  have htake : (splice l i x).take (i + x.length) = l.take i ++ x := by
    unfold splice
    rw [← hlen, List.take_left]
  have hdrop : (splice l i x).drop (i + x.length + y.length) = l.drop (i + (x ++ y).length) := by
    unfold splice
    rw [← List.drop_drop, ← hlen, List.drop_left, List.drop_drop, hlen, List.length_append,
      Nat.add_assoc]
  rw [splice, htake, hdrop, splice, List.append_assoc (l.take i)]

/-- The elements of `data` stand in `l` from position `p` on. -/
def Holds (l : List α) (p : Nat) (data : List α) : Prop :=
  ∀ i, i < data.length → l[p + i]? = data[i]?

theorem holds_splice {l x : List α} {i : Nat} (h : i ≤ l.length) : Holds (splice l i x) i x := by
  intro j hj
  have hslice := slice_splice (x := x) h
  have hget : (((splice l i x).drop i).take x.length)[j]? = (splice l i x)[i + j]? := by
    rw [List.getElem?_take_of_lt hj, List.getElem?_drop]
  rw [← hget, hslice]

theorem Holds.slice {l data : List α} {p : Nat} (h : Holds l p data) :
    (l.drop p).take data.length = data := by
  apply List.ext_getElem?
  intro j
  by_cases hj : j < data.length
  · rw [List.getElem?_take_of_lt hj, List.getElem?_drop]
    exact h j hj
  · rw [List.getElem?_eq_none (by rw [List.length_take]; omega),
      List.getElem?_eq_none (by omega)]

theorem holds_append {l x y : List α} {p : Nat} :
    Holds l p (x ++ y) ↔ Holds l p x ∧ Holds l (p + x.length) y := by
  constructor
  · intro h
    refine ⟨?_, ?_⟩
    · intro i hi
      rw [h i (by rw [List.length_append]; omega), List.getElem?_append_left hi]
    · intro i hi
      rw [Nat.add_assoc, h (x.length + i) (by rw [List.length_append]; omega),
        List.getElem?_append_right (by omega), Nat.add_sub_cancel_left]
  · rintro ⟨hx, hy⟩ i hi
    by_cases hlt : i < x.length
    · rw [List.getElem?_append_left hlt]
      exact hx i hlt
    · rw [List.length_append] at hi
      rw [List.getElem?_append_right (by omega), ← hy (i - x.length) (by omega)]
      congr 1
      omega

theorem Holds.congr {l l' data : List α} {p : Nat} (h : Holds l p data)
    (heq : ∀ i, i < data.length → l'[p + i]? = l[p + i]?) : Holds l' p data := by
  intro i hi
  rw [heq i hi]
  exact h i hi

/-! ## Zigzag -/

section Zigzag

variable {w : Nat} (x : BitVec w)

theorem mul_two_eq_shiftLeft : x * 2#w = x <<< 1 := by
  apply BitVec.eq_of_toNat_eq
  rw [BitVec.toNat_mul, BitVec.toNat_shiftLeft, BitVec.toNat_ofNat, Nat.shiftLeft_eq, Nat.pow_one,
    Nat.mul_mod_mod]

theorem shiftLeft_one_and_one : (x <<< 1) &&& 1#w = 0#w := by
  apply BitVec.eq_of_getLsbD_eq
  intro i hi
  simp only [BitVec.getLsbD_and, BitVec.getLsbD_shiftLeft, BitVec.getLsbD_one, BitVec.getLsbD_zero]
  by_cases h0 : i = 0
  · simp [h0]
  · simp [h0]

theorem not_shiftLeft_one_and_one : ~~~(x <<< 1) &&& 1#w = 1#w := by
  apply BitVec.eq_of_getLsbD_eq
  intro i hi
  simp only [BitVec.getLsbD_and, BitVec.getLsbD_not, BitVec.getLsbD_shiftLeft, BitVec.getLsbD_one]
  by_cases h0 : i = 0
  · simp [h0]
  · simp [h0]

/-- A number that is not negative is doubled, and halving gives it back. -/
theorem zigzag_of_msb_false (h : x.msb = false) :
    (x * 2#w) >>> 1 ^^^ -(x * 2#w &&& 1#w) = x := by
  rw [mul_two_eq_shiftLeft, shiftLeft_one_and_one, BitVec.neg_zero, BitVec.xor_zero]
  apply BitVec.eq_of_getLsbD_eq
  intro i hi
  rw [BitVec.getLsbD_ushiftRight, BitVec.getLsbD_shiftLeft]
  by_cases hlast : 1 + i < w
  · simp [hlast]
  · have hi' : i = w - 1 := by omega
    rw [BitVec.msb_eq_getLsbD_last] at h
    simp [hi', h]

/-- A negative number is doubled and complemented, the least one included. -/
theorem zigzag_of_msb_true (h : x.msb = true) :
    (-(x * 2#w) - 1#w) >>> 1 ^^^ -(-(x * 2#w) - 1#w &&& 1#w) = x := by
  have hcode : -(x * 2#w) - 1#w = ~~~(x <<< 1) := by
    rw [mul_two_eq_shiftLeft, BitVec.not_eq_neg_add]
  rw [hcode, not_shiftLeft_one_and_one, BitVec.neg_one_eq_allOnes]
  apply BitVec.eq_of_getLsbD_eq
  intro i hi
  rw [BitVec.getLsbD_xor, BitVec.getLsbD_ushiftRight, BitVec.getLsbD_not, BitVec.getLsbD_shiftLeft,
    BitVec.getLsbD_allOnes]
  by_cases hlast : 1 + i < w
  · simp [hlast, hi]
  · have hi' : i = w - 1 := by omega
    rw [BitVec.msb_eq_getLsbD_last] at h
    simp [hi', h]
    omega

end Zigzag

end Gxh
