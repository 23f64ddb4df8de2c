import Mathlib.Data.List.Basic
import Mathlib.Data.List.Infix

/-!
# Texts cut at a line end of two letters

`lines` cuts a text at every `cr` that `lf` follows, and `splitHead` takes the lines up to the
first empty one, with what comes after it as it stands.

* `lines_append`, `lines_pieces` — a text put together from pieces with a line end behind each is
  cut into the lines of the pieces;
* `flatMap_lines_eq_iff` — these are the pieces themselves exactly if none has a line end;
* `splitHead_eq_iff` — when the head and the rest are found where they were put together.
-/

namespace Gxh.Lines

variable {α : Type} [DecidableEq α] (cr lf : α)

/-- The text cut at every line end. -/
def lines : List α → List (List α)
  | [] => [[]]
  | [a] => [[a]]
  | a :: b :: rest =>
      if a = cr ∧ b = lf then [] :: lines rest else (lines (b :: rest)).modifyHead (a :: ·)

/-- There is no line end in the text. -/
def unbroken : List α → Bool
  | [] => true
  | [_] => true
  | a :: b :: rest => !(a = cr && b = lf) && unbroken (b :: rest)

/-- The lines before the first empty one, and the text after it. -/
def splitHead (text : List α) : List (List α) × List α :=
  ((lines cr lf text).takeWhile (· ≠ []),
    [cr, lf].intercalate ((lines cr lf text).dropWhile (· ≠ [])).tail)

variable {cr lf}

theorem lines_ne_nil (x : List α) : lines cr lf x ≠ [] := by
  induction x using lines.induct cr lf with
  | case1 => exact List.cons_ne_nil _ _
  | case2 a => exact List.cons_ne_nil _ _
  | case3 a b rest hend ih =>
      rw [lines, if_pos hend]
      exact List.cons_ne_nil _ _
  | case4 a b rest hend ih =>
      rw [lines, if_neg hend]
      obtain ⟨l, ls, hls⟩ := List.exists_cons_of_ne_nil ih
      rw [hls]
      exact List.cons_ne_nil _ _

/-! ## Putting texts together -/

/-- A line end ends the last line before it. -/
theorem lines_append (hne : cr ≠ lf) (x y : List α) :
    lines cr lf (x ++ cr :: lf :: y) = lines cr lf x ++ lines cr lf y := by
  have hnil : lines cr lf (cr :: lf :: y) = [] :: lines cr lf y := by
    rw [lines, if_pos ⟨rfl, rfl⟩]
  induction x using lines.induct cr lf with
  | case1 => exact hnil
  | case2 a =>
      -- a `cr` at the end of the text is no part of the line end
      show lines cr lf (a :: cr :: lf :: y) = [a] :: lines cr lf y
      rw [lines, if_neg fun h => hne h.2, hnil]
      rfl
  | case3 a b rest hend ih =>
      show lines cr lf (a :: b :: (rest ++ cr :: lf :: y)) = _
      rw [lines, if_pos hend, ih, lines, if_pos hend, List.cons_append]
  | case4 a b rest hend ih =>
      show lines cr lf (a :: b :: (rest ++ cr :: lf :: y)) = _
      obtain ⟨l, ls, hls⟩ := List.exists_cons_of_ne_nil (lines_ne_nil (b :: rest))
      have hrest : lines cr lf (b :: (rest ++ cr :: lf :: y)) = (l :: ls) ++ lines cr lf y := by
        rw [← hls]
        exact ih
      rw [lines, if_neg hend, hrest, lines, if_neg hend, hls]
      rfl

theorem lines_pieces (hne : cr ≠ lf) (pieces : List (List α)) (y : List α) :
    lines cr lf (pieces.flatMap (· ++ [cr, lf]) ++ y) =
      pieces.flatMap (lines cr lf) ++ lines cr lf y := by
  induction pieces with
  | nil => rfl
  | cons p ps ih =>
      rw [List.flatMap_cons, List.flatMap_cons, List.append_assoc, List.append_assoc,
        List.append_assoc]
      show lines cr lf (p ++ cr :: lf :: (ps.flatMap (· ++ [cr, lf]) ++ y)) = _
      rw [lines_append hne, ih]

omit [DecidableEq α] in
theorem intercalate_cons_cons_head (a : α) (l : List α) (ls : List (List α)) :
    [cr, lf].intercalate ((a :: l) :: ls) = a :: [cr, lf].intercalate (l :: ls) := by
  cases ls with
  | nil => rw [List.intercalate_singleton, List.intercalate_singleton]
  | cons l' ls =>
      rw [List.intercalate_cons_cons, List.intercalate_cons_cons]
      rfl

/-- The text is its lines with the line ends between them. -/
theorem intercalate_lines (x : List α) : [cr, lf].intercalate (lines cr lf x) = x := by
  induction x using lines.induct cr lf with
  | case1 => rfl
  | case2 a => rw [lines, List.intercalate_singleton]
  | case3 a b rest hend ih =>
      obtain ⟨l, ls, hls⟩ := List.exists_cons_of_ne_nil (lines_ne_nil rest)
      rw [lines, if_pos hend, hls, List.intercalate_cons_cons, ← hls, ih, hend.1, hend.2]
      rfl
  | case4 a b rest hend ih =>
      obtain ⟨l, ls, hls⟩ := List.exists_cons_of_ne_nil (lines_ne_nil (b :: rest))
      rw [hls] at ih
      rw [lines, if_neg hend, hls, List.modifyHead_cons, intercalate_cons_cons_head, ih]

/-! ## Texts without line ends -/

theorem unbroken_iff (x : List α) : unbroken cr lf x = true ↔ ¬[cr, lf] <:+: x := by
  induction x using unbroken.induct with
  | case1 => simp [unbroken]
  | case2 a => simp [unbroken, List.infix_cons_iff]
  | case3 a b rest ih =>
      have hhead : [cr, lf] <+: a :: b :: rest ↔ a = cr ∧ b = lf := by
        rw [List.cons_prefix_cons, List.cons_prefix_cons, eq_comm, @eq_comm _ lf b]
        exact and_congr_right fun _ => and_iff_left List.nil_prefix
      have hpiece : [cr, lf] <:+: a :: b :: rest ↔
          [cr, lf] <+: a :: b :: rest ∨ [cr, lf] <:+: b :: rest := List.infix_cons_iff
      rw [unbroken, Bool.and_eq_true, ih, hpiece, hhead, not_or, Bool.not_eq_true',
        Bool.and_eq_false_iff, decide_eq_false_iff_not, decide_eq_false_iff_not,
        Decidable.not_and_iff_not_or_not]

theorem unbroken_of_not_mem {x : List α} (h : cr ∉ x) : unbroken cr lf x = true := by
  rw [unbroken_iff]
  exact fun hpiece => h (hpiece.subset List.mem_cons_self)

theorem unbroken_append_of_not_mem {x : List α} (h : cr ∉ x) (y : List α) :
    unbroken cr lf (x ++ y) = unbroken cr lf y := by
  induction x with
  | nil => rfl
  | cons a rest ih =>
      obtain ⟨hne, hrest⟩ := not_or.mp (mt List.mem_cons.mpr h)
      rw [List.cons_append, ← ih hrest]
      cases rest ++ y with
      | nil => rfl
      | cons b t => rw [unbroken, decide_eq_false (Ne.symm hne), Bool.false_and, Bool.not_false,
          Bool.true_and]

/-- A letter that is not of the line end keeps the texts beside it apart. -/
theorem unbroken_append_cons {c : α} (hcr : c ≠ cr) (hlf : c ≠ lf) (x y : List α) :
    unbroken cr lf (x ++ c :: y) = (unbroken cr lf x && unbroken cr lf y) := by
  have hcons : unbroken cr lf (c :: y) = unbroken cr lf y := by
    cases y with
    | nil => rfl
    | cons b rest =>
        rw [unbroken, decide_eq_false hcr, Bool.false_and, Bool.not_false, Bool.true_and]
  induction x using unbroken.induct with
  | case1 => exact hcons
  | case2 a =>
      show unbroken cr lf (a :: c :: y) = _
      rw [unbroken.eq_def]
      simp only [decide_eq_false hlf, Bool.and_false, hcons]
      rfl
  | case3 a b rest ih =>
      show unbroken cr lf (a :: b :: (rest ++ c :: y)) = _
      rw [unbroken, unbroken, Bool.and_assoc]
      exact congrArg _ ih

theorem length_lines_pos (x : List α) : 0 < (lines cr lf x).length :=
  List.length_pos_iff.mpr (lines_ne_nil x)

/-- A text without a line end is its only line, and one with a line end has more. -/
theorem lines_of_unbroken {x : List α} (h : unbroken cr lf x = true) : lines cr lf x = [x] := by
  induction x using lines.induct cr lf with
  | case1 => rfl
  | case2 a => rfl
  | case3 a b rest hend ih =>
      rw [unbroken, decide_eq_true hend.1, decide_eq_true hend.2] at h
      cases h
  | case4 a b rest hend ih =>
      rw [unbroken, Bool.and_eq_true] at h
      rw [lines, if_neg hend, ih h.2]
      rfl

theorem unbroken_of_length {x : List α} (h : (lines cr lf x).length = 1) :
    unbroken cr lf x = true := by
  induction x using lines.induct cr lf with
  | case1 => rfl
  | case2 a => rfl
  | case3 a b rest hend ih =>
      have hpos : 0 < (lines cr lf rest).length := length_lines_pos rest
      rw [lines, if_pos hend, List.length_cons] at h
      omega
  | case4 a b rest hend ih =>
      have hhead : (!(a = cr && b = lf)) = true := by
        rw [Bool.not_eq_true', Bool.and_eq_false_iff, decide_eq_false_iff_not,
          decide_eq_false_iff_not]
        exact Decidable.not_and_iff_not_or_not.mp hend
      rw [lines, if_neg hend, List.length_modifyHead] at h
      rw [unbroken, hhead, ih h]
      rfl

theorem length_flatMap_lines (pieces : List (List α)) :
    pieces.length ≤ (pieces.flatMap (lines cr lf)).length := by
  induction pieces with
  | nil => exact Nat.le_refl _
  | cons p ps ih =>
      have hpos : 0 < (lines cr lf p).length := length_lines_pos p
      rw [List.flatMap_cons, List.length_append, List.length_cons]
      omega

/-- The lines are the pieces exactly if no piece has a line end. -/
theorem flatMap_lines_eq_iff (pieces : List (List α)) :
    pieces.flatMap (lines cr lf) = pieces ↔ ∀ p ∈ pieces, unbroken cr lf p = true := by
  induction pieces with
  | nil => exact iff_of_true rfl nofun
  | cons p ps ih =>
      rw [List.flatMap_cons, List.forall_mem_cons, ← ih]
      constructor
      · intro heq
        have hlen := congrArg List.length heq
        have hrest : ps.length ≤ (ps.flatMap (lines cr lf)).length := length_flatMap_lines ps
        have hpos : 0 < (lines cr lf p).length := length_lines_pos p
        rw [List.length_append, List.length_cons] at hlen
        have hp : unbroken cr lf p = true := unbroken_of_length (by omega)
        rw [lines_of_unbroken hp] at heq
        exact ⟨hp, List.cons.inj heq |>.2⟩
      · rintro ⟨hp, hps⟩
        rw [lines_of_unbroken hp, hps]
        rfl

/-! ## The head -/

omit [DecidableEq α] in
theorem length_intercalate_le (before ls : List (List α)) (hls : ls ≠ []) :
    ([cr, lf].intercalate ls).length ≤ ([cr, lf].intercalate (before ++ ls)).length := by
  induction before with
  | nil => exact Nat.le_refl _
  | cons l rest ih =>
      obtain ⟨m, ms, hms⟩ := List.exists_cons_of_ne_nil
        (List.append_ne_nil_of_right_ne_nil rest hls)
      rw [List.cons_append, hms, List.intercalate_cons_cons, ← hms]
      simp only [List.length_append]
      omega

/-- A text whose lines are `head`, an empty one and those of `rest` is cut there exactly if there is
no empty line in `head`. -/
theorem splitHead_eq_iff {text rest : List α} {head : List (List α)}
    (h : lines cr lf text = head ++ [] :: lines cr lf rest) :
    (splitHead cr lf text).2 = rest ↔ ∀ l ∈ head, l ≠ [] := by
  constructor
  · intro hrest l hl hnil
    subst hnil
    obtain ⟨front, back, rfl, hfront⟩ := List.eq_append_cons_of_mem hl
    -- the text after the first empty line has the line end before `rest` in it
    have hkeep : ∀ l ∈ front, decide (l ≠ []) = true := by
      intro l hl
      refine decide_eq_true ?_
      rintro rfl
      exact hfront hl
    have htext : (splitHead cr lf text).2 =
        [cr, lf].intercalate (back ++ [] :: lines cr lf rest) := by
      rw [splitHead, h, List.append_assoc, List.dropWhile_append_of_pos hkeep]
      rfl
    have hlen : ([cr, lf].intercalate ([] :: lines cr lf rest)).length ≤
        ([cr, lf].intercalate (back ++ [] :: lines cr lf rest)).length :=
      length_intercalate_le back _ (List.cons_ne_nil _ _)
    have hlines : lines cr lf rest ≠ [] := lines_ne_nil rest
    obtain ⟨m, ms, hms⟩ := List.exists_cons_of_ne_nil hlines
    have hsep : [cr, lf].intercalate ([] :: lines cr lf rest) = cr :: lf :: rest := by
      rw [hms, List.intercalate_cons_cons, ← hms, intercalate_lines]
      rfl
    rw [← htext, hrest, hsep, List.length_cons, List.length_cons] at hlen
    omega
  · intro hhead
    have hkeep : ∀ l ∈ head, decide (l ≠ []) = true := fun l hl => decide_eq_true (hhead l hl)
    rw [splitHead, h, List.dropWhile_append_of_pos hkeep]
    exact intercalate_lines rest

theorem splitHead_head {text rest : List α} {head : List (List α)}
    (h : lines cr lf text = head ++ [] :: lines cr lf rest) (hhead : ∀ l ∈ head, l ≠ []) :
    (splitHead cr lf text).1 = head := by
  have hkeep : ∀ l ∈ head, decide (l ≠ []) = true := fun l hl => decide_eq_true (hhead l hl)
  rw [splitHead, h, List.takeWhile_append_of_pos hkeep]
  exact List.append_nil _

end Gxh.Lines
