import Gxh.Log.Formatter

/-!
# What the pattern scan accepts

The documented patterns are the strings of `Grammar`. `LogFormatter::init` reads a pattern as a
text of items and a tail that is no complete item (`exists_items`), and the tail decides:

* a lone `%` at the end is dropped without an error;
* `%d` at the end is read past the terminator;
* behind an open `%d{` everything is a date format that is not closed, which is an error, although
  a `%d` followed by text is in the grammar.
-/

namespace Gxh.Log

open HttpParser (bytes)

/-- The documented patterns. -/
inductive Grammar : Str → Prop
  | nil : Grammar []
  | char {c : UInt8} {s : Str} : c ≠ '%' → Grammar s → Grammar (c :: s)
  | item {c : UInt8} {s : Str} : c ∈ itemLetters → Grammar s → Grammar ('%' :: c :: s)
  | date {s : Str} : Grammar s → Grammar ('%' :: 'd' :: s)
  | dateFormat {format s : Str} : (∀ c ∈ format, c ≠ ('}' : UInt8)) → Grammar s →
      Grammar ('%' :: 'd' :: '{' :: (format ++ ('}' : UInt8) :: s))

/-! ## The closing brace -/

/-- The text up to the first closing brace. -/
theorem closing_brace (s : Str) : (∀ c ∈ s, c ≠ ('}' : UInt8)) ∨
    ∃ format rest, s = format ++ ('}' : UInt8) :: rest ∧
      ∀ c ∈ format, c ≠ ('}' : UInt8) := by
  by_cases hmem : ('}' : UInt8) ∈ s
  · obtain ⟨format, rest, hs, hformat⟩ := List.eq_append_cons_of_mem hmem
    exact .inr ⟨format, rest, hs, forall_ne_of_not_mem hformat⟩
  · exact .inl (forall_ne_of_not_mem hmem)

theorem closing_brace_unique {f g r s : Str} (hf : ∀ c ∈ f, c ≠ ('}' : UInt8))
    (hg : ∀ c ∈ g, c ≠ ('}' : UInt8)) (h : f ++ ('}' : UInt8) :: r = g ++ ('}' : UInt8) :: s) :
    r = s := by
  induction f generalizing g with
  | nil =>
      cases g with
      | nil => exact (List.cons.inj h).2
      | cons b g => exact absurd (List.cons.inj h).1.symm (hg b List.mem_cons_self)
  | cons a f ih =>
      cases g with
      | nil => exact absurd (List.cons.inj h).1 (hf a List.mem_cons_self)
      | cons b g =>
          exact ih (fun c hc => hf c (List.mem_cons_of_mem _ hc))
            (fun c hc => hg c (List.mem_cons_of_mem _ hc)) (List.cons.inj h).2

/-- No item other than a date format goes across a closing brace. -/
theorem Grammar.behind_brace {p : Str} (h : Grammar p) {f rest : Str}
    (hf : ∀ c ∈ f, c ≠ ('}' : UInt8)) (hp : p = f ++ ('}' : UInt8) :: rest) :
    Grammar rest := by
  induction h generalizing f with
  | nil => exact absurd hp.symm (List.append_ne_nil_of_right_ne_nil f (List.cons_ne_nil _ _))
  | char _ hs ih =>
      match f with
      | [] => exact (List.cons.inj hp).2 ▸ hs
      | _ :: f => exact ih (fun c hc => hf c (List.mem_cons_of_mem _ hc)) (List.cons.inj hp).2
  | item hc hs ih =>
      match f with
      | [] => exact absurd (List.cons.inj hp).1 (by decide)
      | [_] =>
          have hbrace := (List.cons.inj (List.cons.inj hp).2).1
          exact absurd (hbrace ▸ hc) (by decide)
      | _ :: _ :: f =>
          exact ih (fun c hc => hf c (List.mem_cons_of_mem _ (List.mem_cons_of_mem _ hc)))
            (List.cons.inj (List.cons.inj hp).2).2
  | date hs ih =>
      match f with
      | [] => exact absurd (List.cons.inj hp).1 (by decide)
      | [_] => exact absurd (List.cons.inj (List.cons.inj hp).2).1 (by decide)
      | _ :: _ :: f =>
          exact ih (fun c hc => hf c (List.mem_cons_of_mem _ (List.mem_cons_of_mem _ hc)))
            (List.cons.inj (List.cons.inj hp).2).2
  | dateFormat hg hs ih =>
      match f with
      | [] => exact absurd (List.cons.inj hp).1 (by decide)
      | [_] => exact absurd (List.cons.inj (List.cons.inj hp).2).1 (by decide)
      | [_, _] =>
          exact absurd (List.cons.inj (List.cons.inj (List.cons.inj hp).2).2).1 (by decide)
      | _ :: _ :: _ :: f =>
          have hrest := (List.cons.inj (List.cons.inj (List.cons.inj hp).2).2).2
          rw [← closing_brace_unique hg (fun c hc => hf c (List.mem_cons_of_mem _
            (List.mem_cons_of_mem _ (List.mem_cons_of_mem _ hc)))) hrest]
          exact hs

/-! ## The grammar, item by item -/

theorem grammar_percent : ¬ Grammar [('%' : UInt8)] := by
  intro h
  cases h with
  | char hc _ => exact hc rfl

theorem grammar_char {c : UInt8} {s : Str} (hc : c ≠ '%') : Grammar (c :: s) ↔ Grammar s := by
  refine ⟨fun h => ?_, .char hc⟩
  cases h with
  | char _ hs => exact hs
  | item _ _ => exact absurd rfl hc
  | date _ => exact absurd rfl hc
  | dateFormat _ _ => exact absurd rfl hc

theorem grammar_item {c : UInt8} {s : Str} (hc : c ≠ 'd') :
    Grammar ('%' :: c :: s) ↔ c ∈ itemLetters ∧ Grammar s := by
  refine ⟨fun h => ?_, fun h => .item h.1 h.2⟩
  cases h with
  | char hp _ => exact absurd rfl hp
  | item hmem hs => exact ⟨hmem, hs⟩
  | date _ => exact absurd rfl hc
  | dateFormat _ _ => exact absurd rfl hc

/-- A date without braces, or with braces that do not close. -/
theorem grammar_date {s : Str}
    (hs : ∀ format rest : Str, (∀ c ∈ format, c ≠ ('}' : UInt8)) →
      s ≠ ('{' : UInt8) :: (format ++ ('}' : UInt8) :: rest)) :
    Grammar ('%' :: 'd' :: s) ↔ Grammar s := by
  refine ⟨fun h => ?_, .date⟩
  cases h with
  | char hp _ => exact absurd rfl hp
  | item hmem _ => exact absurd hmem (by decide)
  | date hrest => exact hrest
  | dateFormat hf _ => exact absurd rfl (hs _ _ hf)

theorem grammar_dateFormat {format s : Str} (hf : ∀ c ∈ format, c ≠ ('}' : UInt8)) :
    Grammar ('%' :: 'd' :: '{' :: (format ++ ('}' : UInt8) :: s)) ↔ Grammar s := by
  refine ⟨fun h => ?_, .dateFormat hf⟩
  generalize hp : ('{' : UInt8) :: (format ++ ('}' : UInt8) :: s) = p at h
  cases h with
  | char hc _ => exact absurd rfl hc
  | item hmem _ => exact absurd hmem (by decide)
  | date hrest =>
      rw [← hp, grammar_char (by decide)] at hrest
      exact hrest.behind_brace hf rfl
  | dateFormat hg hs =>
      rw [closing_brace_unique hf hg (List.cons.inj hp).2]
      exact hs

theorem grammar_literal {str : Str} (h : ∀ c ∈ str, c ≠ ('%' : UInt8)) (s : Str) :
    Grammar (str ++ s) ↔ Grammar s := by
  induction str with
  | nil => rfl
  | cons c str ih =>
      rw [List.cons_append, grammar_char (h c List.mem_cons_self)]
      exact ih fun x hx => h x (List.mem_cons_of_mem _ hx)

theorem Item.grammar (item : Item) {rest : Str}
    (hdate : item = .date → ∃ c s, rest = c :: s ∧ c ≠ ('{' : UInt8)) :
    Grammar (item.text ++ rest) ↔ item.Known ∧ Grammar rest := by
  cases item with
  | literal str hplain => exact (grammar_literal hplain rest).trans (and_iff_right trivial).symm
  | plain c hc => exact grammar_item hc
  | date =>
      obtain ⟨c, s, rfl, hc⟩ := hdate rfl
      refine (grammar_date fun _ _ _ heq => ?_).trans (and_iff_right trivial).symm
      exact hc (List.cons.inj heq).1
  | dateWith format hclosed =>
      show Grammar ('%' :: 'd' :: '{' :: (format ++ [('}' : UInt8)] ++ rest)) ↔ _
      rw [List.append_assoc]
      exact (grammar_dateFormat hclosed).trans (and_iff_right trivial).symm

theorem grammar_items {items : List Item} {tail : Str} (h : Separated items tail) :
    Grammar (textOf items ++ tail) ↔ (∀ item ∈ items, item.Known) ∧ Grammar tail := by
  induction items with
  | nil => exact (and_iff_right nofun).symm
  | cons item items ih =>
      show Grammar (item.text ++ textOf items ++ tail) ↔ _
      rw [List.append_assoc, item.grammar, ih h.tail, List.forall_mem_cons, and_assoc]
      rintro rfl
      exact h.1

/-! ## Every pattern is a text of items and a tail -/

/-- What is left of a pattern when no complete item is left. -/
inductive Tail : Str → Prop
  | nil : Tail []
  | percent : Tail [('%' : UInt8)]
  | date : Tail [('%' : UInt8), 'd']
  | brace {format : Str} : (∀ c ∈ format, c ≠ ('}' : UInt8)) →
      Tail ('%' :: 'd' :: '{' :: format)

theorem exists_items (p : Str) :
    ∃ items tail, p = textOf items ++ tail ∧ Separated items tail ∧ Tail tail := by
  match p with
  | [] => exact ⟨[], [], rfl, trivial, .nil⟩
  | c :: s =>
      by_cases hpercent : c = '%'
      · subst hpercent
        match s with
        | [] => exact ⟨[], _, rfl, trivial, .percent⟩
        | c :: s =>
            by_cases hd : c = 'd'
            · subst hd
              match s with
              | [] => exact ⟨[], _, rfl, trivial, .date⟩
              | c :: s =>
                  by_cases hbrace : c = '{'
                  · subst hbrace
                    -- without a closing brace nothing is complete any more
                    rcases closing_brace s with hopen | ⟨format, rest, rfl, hclosed⟩
                    · exact ⟨[], _, rfl, trivial, .brace hopen⟩
                    · obtain ⟨items, tail, hp, hsep, htail⟩ := exists_items rest
                      refine ⟨.dateWith format hclosed :: items, tail, ?_, hsep, htail⟩
                      show _ = ('%' : UInt8) :: 'd' :: '{' ::
                        (format ++ [('}' : UInt8)] ++ textOf items ++ tail)
                      rw [hp]
                      simp
                  · obtain ⟨items, tail, hp, hsep, htail⟩ := exists_items (c :: s)
                    -- a date item without braces must not be followed by one
                    refine ⟨.date :: items, tail, ?_, ⟨⟨c, s, hp.symm, hbrace⟩, hsep⟩, htail⟩
                    rw [hp]
                    rfl
            · obtain ⟨items, tail, hp, hsep, htail⟩ := exists_items s
              exact ⟨.plain c hd :: items, tail, by rw [hp]; rfl, hsep, htail⟩
      · obtain ⟨items, tail, hp, hsep, htail⟩ := exists_items s
        have hplain : ∀ x ∈ [c], x ≠ ('%' : UInt8) := by
          rintro x hx rfl
          exact hpercent (List.mem_singleton.mp hx).symm
        exact ⟨.literal [c] hplain :: items, tail, by rw [hp]; rfl, hsep, htail⟩
termination_by p.length

/-! ## What becomes of the tail -/

theorem new_error {items : List Item} {tail : Str} (h : Separated items tail)
    (htail : tail = [] ∨ tail = [('%' : UInt8)]) :
    ∃ fm, LogFormatter.new (textOf items ++ tail) = some fm ∧
      (fm.isError = false ↔ ∀ item ∈ items, item.Known) :=
  ⟨_, new_items h htail, (build_error _ _).trans (entries_known items)⟩

theorem new_date {items : List Item} (h : Separated items [('%' : UInt8), 'd']) :
    LogFormatter.new (textOf items ++ [('%' : UInt8), 'd']) = none := by
  unfold LogFormatter.new
  rw [scan_items h]
  rfl

theorem new_brace {items : List Item} {format : Str}
    (h : Separated items ('%' :: 'd' :: '{' :: format)) (hf : ∀ c ∈ format, c ≠ ('}' : UInt8)) :
    ∃ fm, LogFormatter.new (textOf items ++ ('%' : UInt8) :: 'd' :: '{' :: format) = some fm ∧
      fm.isError = true := by
  have hscan : ∀ st, scan ('%' :: 'd' :: '{' :: format) .string st = .notClosed := by
    intro st
    show scan ('%' :: 'd' :: '{' :: format) .string st = _
    rw [scan, if_pos rfl, scan.eq_def]
    dsimp only
    rw [if_neg (not_not.mpr rfl), if_neg (not_not.mpr rfl), ← List.append_nil format,
      scan_braces hf]
    rfl
  unfold LogFormatter.new
  rw [scan_items h, hscan]
  exact ⟨_, rfl, rfl⟩

/-- The formatter is built without an undefined read, and reports an error exactly for a pattern
that is not in the grammar. -/
def Decides (p : Str) : Prop :=
  ∃ fm, LogFormatter.new p = some fm ∧ (fm.isError = false ↔ Grammar p)

/-- The pattern ends inside an item: in `%d`, in a `%` behind known items, or, behind known items,
in `%d{` and text that the grammar takes for what follows a date without braces. -/
def CutShort (p : Str) : Prop :=
  ∃ items tail, p = textOf items ++ tail ∧ Separated items tail ∧
    (tail = [('%' : UInt8), 'd'] ∨
      (∀ item ∈ items, item.Known) ∧
        (tail = [('%' : UInt8)] ∨
          ∃ format, (∀ c ∈ format, c ≠ ('}' : UInt8)) ∧ Grammar format ∧
            tail = ('%' : UInt8) :: 'd' :: '{' :: format))

theorem not_decides_date {items : List Item} (h : Separated items [('%' : UInt8), 'd']) :
    ¬ Decides (textOf items ++ [('%' : UInt8), 'd']) := by
  rintro ⟨fm, hnew, -⟩
  rw [new_date h] at hnew
  cases hnew

theorem decides_percent {items : List Item} (h : Separated items [('%' : UInt8)]) :
    Decides (textOf items ++ [('%' : UInt8)]) ↔ ¬ ∀ item ∈ items, item.Known := by
  obtain ⟨fm, hnew, herror⟩ := new_error h (.inr rfl)
  have hgrammar : ¬ Grammar (textOf items ++ [('%' : UInt8)]) :=
    fun hg => grammar_percent ((grammar_items h).mp hg).2
  refine ⟨?_, fun hunknown => ⟨fm, hnew, ?_⟩⟩
  · rintro ⟨fm', hnew', hiff⟩ hknown
    rw [hnew] at hnew'
    cases hnew'
    exact hgrammar (hiff.mp (herror.mpr hknown))
  · exact iff_of_false (fun he => hunknown (herror.mp he)) hgrammar

theorem decides_brace {items : List Item} {format : Str}
    (h : Separated items ('%' :: 'd' :: '{' :: format)) (hf : ∀ c ∈ format, c ≠ ('}' : UInt8)) :
    Decides (textOf items ++ ('%' : UInt8) :: 'd' :: '{' :: format) ↔
      ¬ ((∀ item ∈ items, item.Known) ∧ Grammar format) := by
  obtain ⟨fm, hnew, herror⟩ := new_brace h hf
  have hgrammar : Grammar (textOf items ++ ('%' : UInt8) :: 'd' :: '{' :: format) ↔
      (∀ item ∈ items, item.Known) ∧ Grammar format := by
    rw [grammar_items h, grammar_date, grammar_char (by decide)]
    rintro f rest - heq
    refine hf '}' ?_ rfl
    rw [(List.cons.inj heq).2]
    exact List.mem_append_right _ List.mem_cons_self
  rw [← hgrammar]
  refine ⟨?_, fun hno => ⟨fm, hnew, iff_of_false (by rw [herror]; nofun) hno⟩⟩
  rintro ⟨fm', hnew', hiff⟩ hg
  rw [hnew] at hnew'
  cases hnew'
  rw [hiff.mpr hg] at herror
  cases herror

/-- The scan decides the grammar, on every pattern that is not cut short. -/
theorem pattern_decides (p : Str) : Decides p ↔ ¬ CutShort p := by
  constructor
  · rintro hdecides ⟨items, tail, rfl, hsep, rfl | ⟨hknown, rfl | ⟨format, hf, hg, rfl⟩⟩⟩
    · exact not_decides_date hsep hdecides
    · exact (decides_percent hsep).mp hdecides hknown
    · exact (decides_brace hsep hf).mp hdecides ⟨hknown, hg⟩
  · intro hcut
    obtain ⟨items, tail, rfl, hsep, htail⟩ := exists_items p
    cases htail with
    | nil =>
        obtain ⟨fm, hnew, herror⟩ := new_error hsep (.inl rfl)
        refine ⟨fm, hnew, herror.trans ?_⟩
        rw [grammar_items hsep]
        exact (and_iff_left .nil).symm
    | percent =>
        exact (decides_percent hsep).mpr fun hknown =>
          hcut ⟨items, _, rfl, hsep, .inr ⟨hknown, .inl rfl⟩⟩
    | date => exact absurd ⟨items, _, rfl, hsep, .inl rfl⟩ hcut
    | @brace format hf =>
        exact (decides_brace hsep hf).mpr fun h =>
          hcut ⟨items, _, rfl, hsep, .inr ⟨h.1, .inr ⟨format, hf, h.2, rfl⟩⟩⟩

/-- `%m%d` is in the grammar, and the scan reads behind the terminator. -/
theorem pattern_decides_date :
    Grammar (bytes "%m%d") ∧ LogFormatter.new (bytes "%m%d") = none ∧ ¬ Decides (bytes "%m%d") := by
  have hnew : LogFormatter.new (bytes "%m%d") = none := by decide
  refine ⟨.item (by decide) (.date .nil), hnew, ?_⟩
  rintro ⟨fm, h, -⟩
  rw [hnew] at h
  cases h

end Gxh.Log
