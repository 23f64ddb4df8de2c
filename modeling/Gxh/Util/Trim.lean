import Gxh.Http.Params
import Gxh.Lib.Trimming

/-!
# Trimming

`StringUtil::Trim`, `TrimLeft` and `TrimRight` (`util.cpp`): index searches, with `npos` as `none`,
and substrings between the indices.

* `trimLeft_eq`, `trim_eq`, `trimRight_eq` — what the three functions compute. `TrimRight` passes
  the index of the last character to keep as a length, and drops that character too;
* `trim_laws_iff` — so the laws of trimming hold for the strings of delimiters only.
-/

namespace Gxh.Util

open HttpParser Trimming

/-- `str.find_first_not_of(delimit)`. -/
def findFirstNotOf (delimit : List UInt8) : List UInt8 → Option Nat
  | [] => none
  | c :: rest => if c ∈ delimit then (findFirstNotOf delimit rest).map (· + 1) else some 0

/-- `str.find_last_not_of(delimit)`. -/
def findLastNotOf (delimit str : List UInt8) : Option Nat :=
  (findFirstNotOf delimit str.reverse).map (str.length - 1 - ·)

/-- `str.substr(pos, n)`. -/
def substr (str : List UInt8) (pos n : Nat) : List UInt8 := (str.drop pos).take n

/-- `Trim`. -/
def trim (str delimit : List UInt8) : List UInt8 :=
  match findFirstNotOf delimit str with
  | none => []
  | some first =>
      match findLastNotOf delimit str with
      -- not reached: the string has a character to keep
      | none => []
      | some last => substr str first (last - first + 1)

/-- `TrimLeft`. -/
def trimLeft (str delimit : List UInt8) : List UInt8 :=
  match findFirstNotOf delimit str with
  | none => []
  | some first => str.drop first

/-- `TrimRight`. -/
def trimRight (str delimit : List UInt8) : List UInt8 :=
  match findLastNotOf delimit str with
  | none => []
  | some last => substr str 0 last

/-- `x` is `str` without its longest suffix of delimiters. -/
def WithoutSuffix (delimit str x : List UInt8) : Prop :=
  ∃ suffix, str = x ++ suffix ∧ (∀ c ∈ suffix, c ∈ delimit) ∧ ∀ c ∈ x.getLast?, c ∉ delimit

structure TrimLaws (str delimit : List UInt8) : Prop where
  left_first : trim str delimit = trimRight (trimLeft str delimit) delimit
  right_first : trim str delimit = trimLeft (trimRight str delimit) delimit
  idem : trim (trim str delimit) delimit = trim str delimit
  idem_left : trimLeft (trimLeft str delimit) delimit = trimLeft str delimit
  idem_right : trimRight (trimRight str delimit) delimit = trimRight str delimit
  right : WithoutSuffix delimit str (trimRight str delimit)
  mirror : trimRight str delimit = (trimLeft str.reverse delimit).reverse
  unchanged : (∀ c ∈ str.head?, c ∉ delimit) → (∀ c ∈ str.getLast?, c ∉ delimit) →
    trim str delimit = str ∧ trimLeft str delimit = str ∧ trimRight str delimit = str

/-! ## The searches -/

variable {delimit str : List UInt8}

theorem findFirstNotOf_eq_none : findFirstNotOf delimit str = none ↔ ∀ c ∈ str, c ∈ delimit := by
  induction str with
  | nil => exact iff_of_true rfl nofun
  | cons c rest ih =>
      rw [findFirstNotOf, List.forall_mem_cons]
      by_cases hc : c ∈ delimit
      · rw [if_pos hc, Option.map_eq_none_iff, ih]
        exact (and_iff_right hc).symm
      · rw [if_neg hc]
        exact iff_of_false nofun fun h => hc h.1

theorem findLastNotOf_eq_none : findLastNotOf delimit str = none ↔ ∀ c ∈ str, c ∈ delimit := by
  rw [findLastNotOf, Option.map_eq_none_iff, findFirstNotOf_eq_none]
  simp only [List.mem_reverse]

/-- The string at the first character to keep. -/
theorem split_findFirstNotOf {first : Nat} (h : findFirstNotOf delimit str = some first) :
    ∃ x c y, str = x ++ c :: y ∧ x.length = first ∧ (∀ a ∈ x, a ∈ delimit) ∧ c ∉ delimit := by
  induction str generalizing first with
  | nil => cases h
  | cons a rest ih =>
      rw [findFirstNotOf] at h
      by_cases ha : a ∈ delimit
      · rw [if_pos ha] at h
        obtain ⟨i, hi, rfl⟩ := Option.map_eq_some_iff.mp h
        obtain ⟨x, c, y, rfl, rfl, hx, hc⟩ := ih hi
        refine ⟨a :: x, c, y, rfl, rfl, ?_, hc⟩
        exact List.forall_mem_cons.mpr ⟨ha, hx⟩
      · rw [if_neg ha] at h
        cases h
        exact ⟨[], a, rest, rfl, rfl, nofun, ha⟩

/-- The string at the last character to keep. -/
theorem split_findLastNotOf {last : Nat} (h : findLastNotOf delimit str = some last) :
    ∃ x c y, str = x ++ c :: y ∧ x.length = last ∧ c ∉ delimit ∧ ∀ a ∈ y, a ∈ delimit := by
  obtain ⟨i, hi, rfl⟩ := Option.map_eq_some_iff.mp h
  obtain ⟨x, c, y, heq, rfl, hx, hc⟩ := split_findFirstNotOf hi
  have hstr : str = y.reverse ++ c :: x.reverse := by
    rw [← List.reverse_reverse str, heq]
    simp
  refine ⟨y.reverse, c, x.reverse, hstr, ?_, hc, fun a ha => hx a (List.mem_reverse.mp ha)⟩
  rw [hstr]
  simp only [List.length_append, List.length_reverse, List.length_cons]
  omega

/-! ## What the functions compute -/

theorem not_contains {c : UInt8} (hc : c ∉ delimit) : delimit.contains c = false := by
  rw [Bool.eq_false_iff, ne_eq, List.contains_iff_mem]
  exact hc

theorem dropWhile_of_delimiters (h : ∀ c ∈ str, c ∈ delimit) :
    str.dropWhile delimit.contains = [] :=
  List.dropWhile_eq_nil_iff.mpr fun c hc => List.contains_iff_mem.mpr (h c hc)

theorem rdropWhile_of_delimiters (h : ∀ c ∈ str, c ∈ delimit) :
    str.rdropWhile delimit.contains = [] :=
  List.rdropWhile_eq_nil_iff.mpr fun c hc => List.contains_iff_mem.mpr (h c hc)

theorem trimLeft_eq (str delimit : List UInt8) :
    trimLeft str delimit = str.dropWhile delimit.contains := by
  unfold trimLeft
  cases hfirst : findFirstNotOf delimit str with
  | none => exact (dropWhile_of_delimiters (findFirstNotOf_eq_none.mp hfirst)).symm
  | some first =>
      obtain ⟨x, c, y, rfl, rfl, hx, hc⟩ := split_findFirstNotOf hfirst
      show (x ++ c :: y).drop x.length = _
      rw [List.drop_left, dropWhile_stop (not_contains hc), dropWhile_of_delimiters hx,
        List.nil_append]

/-- The last character to keep is dropped as well. -/
theorem trimRight_eq (str delimit : List UInt8) :
    trimRight str delimit = (str.rdropWhile delimit.contains).dropLast := by
  unfold trimRight
  cases hlast : findLastNotOf delimit str with
  | none =>
      rw [rdropWhile_of_delimiters (findLastNotOf_eq_none.mp hlast)]
      rfl
  | some last =>
      obtain ⟨x, c, y, rfl, rfl, hc, hy⟩ := split_findLastNotOf hlast
      show (x ++ c :: y).take x.length = _
      rw [List.take_left, rdropWhile_stop (not_contains hc), rdropWhile_of_delimiters hy,
        List.dropLast_concat]

/-- The length `Trim` passes is right: the last character has index `last - first` behind the
first one. -/
theorem trim_eq (str delimit : List UInt8) :
    trim str delimit = (str.dropWhile delimit.contains).rdropWhile delimit.contains := by
  unfold trim
  cases hfirst : findFirstNotOf delimit str with
  | none =>
      rw [dropWhile_of_delimiters (findFirstNotOf_eq_none.mp hfirst)]
      rfl
  | some first =>
      cases hlast : findLastNotOf delimit str with
      | none =>
          rw [findFirstNotOf_eq_none.mpr (findLastNotOf_eq_none.mp hlast)] at hfirst
          cases hfirst
      | some last =>
          obtain ⟨x, c, y, rfl, rfl, hx, hc⟩ := split_findFirstNotOf hfirst
          obtain ⟨x', c', y', heq, rfl, hc', hy'⟩ := split_findLastNotOf hlast
          -- both say what is left when the suffix is dropped
          have hkeep : x ++ c :: y.rdropWhile delimit.contains = x' ++ [c'] := by
            rw [← rdropWhile_stop (not_contains hc), heq, rdropWhile_stop (not_contains hc'),
              rdropWhile_of_delimiters hy']
          have hlen := congrArg List.length hkeep
          simp only [List.length_append, List.length_cons, List.length_nil] at hlen
          have htake : (x ++ c :: y).take (x'.length + 1) = x' ++ [c'] := by
            rw [heq, List.take_append, List.take_of_length_le (by omega), Nat.add_sub_cancel_left]
            rfl
          have hlast : x'.length - x.length + 1 = x'.length + 1 - x.length := by omega
          show ((x ++ c :: y).drop x.length).take (x'.length - x.length + 1) = _
          rw [hlast, ← List.drop_take, htake, ← hkeep, List.drop_left,
            dropWhile_stop (not_contains hc), dropWhile_of_delimiters hx, List.nil_append]
          exact (rdropWhile_stop (not_contains hc) [] y).symm

/-- `Trim` as the parsing of cookies calls it. -/
theorem trim_default (str : List UInt8) :
    trim str (bytes " \t\r\n") = Http.StringUtil.trim str := by
  have hlist : bytes " \t\r\n" = [(' ' : UInt8), 9, CR, LF] := by decide
  have hblank : (bytes " \t\r\n").contains = Http.isTrimmed := by
    funext c
    rw [hlist]
    simp [Http.isTrimmed, Bool.or_assoc]
  rw [trim_eq, hblank]
  rfl

/-! ## The laws -/

theorem trimLeft_idem (str delimit : List UInt8) :
    trimLeft (trimLeft str delimit) delimit = trimLeft str delimit := by
  rw [trimLeft_eq, trimLeft_eq]
  exact List.dropWhile_idempotent _ _

theorem trim_idem (str delimit : List UInt8) :
    trim (trim str delimit) delimit = trim str delimit := by
  rw [trim_eq, trim_eq, ← rdropWhile_dropWhile (str.dropWhile delimit.contains)]
  rw [List.rdropWhile_idempotent]
  congr 1
  exact List.dropWhile_idempotent _ _

theorem trim_of_delimiters (h : ∀ c ∈ str, c ∈ delimit) :
    trim str delimit = [] ∧ trimLeft str delimit = [] ∧ trimRight str delimit = [] := by
  rw [trim_eq, trimLeft_eq, trimRight_eq, dropWhile_of_delimiters h, rdropWhile_of_delimiters h]
  exact ⟨rfl, rfl, rfl⟩

/-- `TrimRight` leaves out the longest suffix only if that is the whole string. -/
theorem withoutSuffix_iff :
    WithoutSuffix delimit str (trimRight str delimit) ↔ ∀ c ∈ str, c ∈ delimit := by
  constructor
  · rintro ⟨suffix, hstr, hsuffix, -⟩
    rw [← findLastNotOf_eq_none]
    cases hlast : findLastNotOf delimit str with
    | none => rfl
    | some last =>
        obtain ⟨x, c, y, heq, rfl, hc, hy⟩ := split_findLastNotOf hlast
        have hx : trimRight str delimit = x := by
          unfold trimRight
          rw [hlast]
          show str.take x.length = x
          rw [heq, List.take_left]
        rw [hx, heq] at hstr
        have hmem : c ∈ suffix := by
          rw [← List.append_cancel_left hstr]
          exact List.mem_cons_self
        exact absurd (hsuffix c hmem) hc
  · intro h
    rw [(trim_of_delimiters h).2.2]
    exact ⟨str, rfl, h, nofun⟩

theorem trim_laws_iff (str delimit : List UInt8) :
    TrimLaws str delimit ↔ ∀ c ∈ str, c ∈ delimit := by
  constructor
  · intro h
    exact withoutSuffix_iff.mp h.right
  · intro h
    obtain ⟨htrim, hleft, hright⟩ := trim_of_delimiters h
    obtain ⟨-, hleft', hright'⟩ := @trim_of_delimiters delimit [] nofun
    refine ⟨?_, ?_, trim_idem str delimit, trimLeft_idem str delimit, ?_,
      withoutSuffix_iff.mpr h, ?_, ?_⟩
    · rw [htrim, hleft, hright']
    · rw [htrim, hright, hleft']
    · rw [hright, hright']
    · have hreverse := trim_of_delimiters fun c hc => h c (List.mem_reverse.mp hc)
      rw [hright, hreverse.2.1]
      rfl
    · intro hhead _
      have hnil : str = [] := by
        cases str with
        | nil => rfl
        | cons c rest => exact absurd (h c List.mem_cons_self) (hhead c rfl)
      rw [htrim, hleft, hright, hnil]
      exact ⟨rfl, rfl, rfl⟩

/-- The `b` goes with the blank behind it. -/
theorem trim_laws_blank : trimRight (bytes "ab ") (bytes " \t\r\n") = bytes "a" ∧
    ¬ ∀ str delimit, TrimLaws str delimit := by
  refine ⟨by decide, fun h => ?_⟩
  have hright := (h (bytes "ab ") (bytes " \t\r\n")).right_first
  revert hright
  decide

end Gxh.Util
