import Gxh.Log.Formatter
import Mathlib.Algebra.Order.BigOperators.Group.List

/-!
# Formatting, item by item

The formatter of a text of items writes what each item writes, one after the other, except that
every date item gets the formats of all of them, joined (`composes_iff`). So it writes each date
in the format of its own item exactly when all these formats are the joined one.
-/

namespace Gxh.Log

open Http (cStr)
open HttpParser (bytes)

section Composition

variable (strftime : Str → Int → Str) (event : LogEvent)

/-- What an item writes on its own. -/
def Item.write (item : Item) : Str := item.writeWith strftime event (item.format.getD [])

/-- The text of a date in this format and its terminator fit in 64 bytes. -/
def DateFits (format : Str) : Prop :=
  (strftime (cStr (dateFormat format)) event.time).length < 64

def DatesFit (items : List Item) : Prop := ∀ f ∈ formatsOf items, DateFits strftime event f

/-- The formatter of the text writes what the items write. -/
def Composes (items : List Item) : Prop :=
  ∃ fm, LogFormatter.new (textOf items) = some fm ∧ fm.isError = false ∧
    fm.format strftime event = some (items.flatMap (Item.write strftime event))

variable {strftime event}

/-! ## Dates that fit -/

theorem formatItems_fits {c : UInt8} {item : FormatItem} (h : formatItems c = some item) :
    item.fits strftime event = true := by
  have hite : ∀ (p : Prop) [Decidable p] (a : FormatItem) (rest : Option FormatItem),
      a.fits strftime event = true → (∀ i ∈ rest, i.fits strftime event = true) →
        ∀ i ∈ (if p then some a else rest), i.fits strftime event = true := by
    intro p _ a rest ha hrest i hi
    split at hi
    · rw [← Option.mem_some.mp hi]
      exact ha
    · exact hrest i hi
  have hall : ∀ i ∈ formatItems c, i.fits strftime event = true := by
    unfold formatItems
    repeat apply hite _ _ _ rfl
    nofun
  exact hall item h

/-- A date item, where dates are in the format `shared`, fits. -/
def Pattern.Fits (strftime : Str → Int → Str) (event : LogEvent) (shared : Str) : Pattern → Prop
  | string _ => True
  | item c => c = 'd' → DateFits strftime event shared

theorem build_fits {shared : Str} {patterns : List Pattern} (h : ∀ p ∈ patterns, p.Known) :
    (build shared patterns).1.all (FormatItem.fits strftime event) = true ↔
      ∀ p ∈ patterns, p.Fits strftime event shared := by
  induction patterns with
  | nil => exact iff_of_true rfl nofun
  | cons p rest ih =>
      rw [List.forall_mem_cons] at h ⊢
      have hrest := ih h.2
      cases p with
      | string str => exact hrest.trans (and_iff_right trivial).symm
      | item c =>
          unfold build
          split
          · rename_i hd
            rw [List.all_cons, Bool.and_eq_true, hrest]
            refine and_congr_left fun _ => decide_eq_true_iff.trans ?_
            exact ⟨fun hfits _ => hfits, fun hfits => hfits hd⟩
          · rename_i hd
            obtain ⟨item, hitem⟩ := Option.isSome_iff_exists.mp (h.1.resolve_left hd)
            rw [hitem]
            dsimp only
            rw [List.all_cons, Bool.and_eq_true, hrest]
            exact and_congr_left fun _ =>
              iff_of_true (formatItems_fits hitem) fun hc => absurd hc hd

theorem entries_fit (shared : Str) (items : List Item) :
    (∀ p ∈ entries items, p.Fits strftime event shared) ↔
      ∀ f ∈ formatsOf items, DateFits strftime event shared := by
  rw [entries_all fun _ => trivial]
  unfold formatsOf
  simp only [List.mem_filterMap, forall_exists_index, and_imp]
  constructor
  · intro h f item hmem hformat
    have hitem := h item hmem
    cases item with
    | literal str _ => cases hformat
    | plain c _ => cases hformat
    | date => exact hitem rfl
    | dateWith format _ => exact hitem rfl
  · intro h item hmem
    cases item with
    | literal str _ => exact trivial
    | plain c hc => exact fun hd => absurd hd hc
    | date => exact fun _ => h [] _ hmem rfl
    | dateWith format _ => exact fun _ => h format _ hmem rfl

/-- What the formatter of a text of known items writes. -/
theorem format_items {items : List Item} {fm : LogFormatter} {text : Str}
    (hsep : Separated items []) (hknown : ∀ item ∈ items, item.Known)
    (hnew : LogFormatter.new (textOf items) = some fm) :
    fm.format strftime event = some text ↔
      (∀ f ∈ formatsOf items, DateFits strftime event (formatsOf items).flatten) ∧
        items.flatMap (Item.writeWith strftime event (formatsOf items).flatten) = text := by
  have hentries := (entries_known items).mpr hknown
  have hfm := new_items hsep (.inl rfl)
  rw [List.append_nil, hnew] at hfm
  cases hfm
  unfold LogFormatter.format
  rw [← entries_fit, ← build_fits hentries, ← entries_write, ← build_write hentries]
  split
  · rename_i hfits
    rw [Option.some.injEq]
    exact (and_iff_right hfits).symm
  · rename_i hfits
    exact iff_of_false nofun fun h => hfits h.1

theorem composes_iff {items : List Item} (hsep : Separated items [])
    (hknown : ∀ item ∈ items, item.Known) :
    Composes strftime event items ↔
      (∀ f ∈ formatsOf items, DateFits strftime event (formatsOf items).flatten) ∧
        items.flatMap (Item.writeWith strftime event (formatsOf items).flatten) =
          items.flatMap (Item.write strftime event) := by
  have hnew := new_items hsep (.inl rfl)
  rw [List.append_nil] at hnew
  rw [← format_items hsep hknown hnew]
  constructor
  · rintro ⟨fm, hfm, -, hformat⟩
    rw [hnew] at hfm
    cases hfm
    exact hformat
  · exact fun hformat =>
      ⟨_, hnew, (build_error _ _).mpr ((entries_known items).mpr hknown), hformat⟩

end Composition

/-! ## One format for all dates -/

/-- As `strftime` takes them, the formats of the date items are all their concatenation, where
the default format stands for an empty one. -/
def SharedFormat (items : List Item) : Prop :=
  ∀ f ∈ formatsOf items, cStr (dateFormat f) = cStr (dateFormat (formatsOf items).flatten)

theorem flatten_count {d : Str} {formats : List Str} (hd : d ≠ [])
    (h : ∀ f ∈ formats, f = [] ∨ f = d) :
    formats.flatten = (List.replicate (formats.count d) d).flatten := by
  induction formats with
  | nil => rfl
  | cons f rest ih =>
      rw [List.forall_mem_cons] at h
      rw [List.flatten_cons, ih h.2]
      rcases h.1 with rfl | rfl
      · rw [List.count_cons_of_ne hd.symm, List.nil_append]
      · rw [List.count_cons_self, List.replicate_succ, List.flatten_cons]

/-- A format that makes up all the text occurs once. -/
theorem count_joined {formats : List Str} (hne : formats.flatten ≠ [])
    (h : ∀ f ∈ formats, f = [] ∨ f = formats.flatten) : formats.count formats.flatten = 1 := by
  have hlength : formats.flatten.length =
      formats.count formats.flatten * formats.flatten.length := by
    calc formats.flatten.length
        = (List.replicate (formats.count formats.flatten) formats.flatten).flatten.length :=
          congrArg List.length (flatten_count hne h)
      _ = formats.count formats.flatten * formats.flatten.length := by
          rw [List.length_flatten, List.map_replicate, List.sum_replicate_nat]
  exact (Nat.eq_of_mul_eq_mul_right (List.length_pos_iff.mpr hne)
    ((Nat.one_mul _).trans hlength)).symm

theorem dateFormat_of_ne {f : Str} (h : f ≠ []) : dateFormat f = f := if_neg h

theorem dateFormat_default {f : Str} (h : f = [] ∨ f = defaultDate) :
    dateFormat f = defaultDate := by
  rcases h with rfl | rfl
  · rfl
  · exact dateFormat_of_ne (by decide)

theorem same_format_iff (formats : List Str) :
    (∀ f ∈ formats, dateFormat f = dateFormat formats.flatten) ↔
      formats.length ≤ 1 ∨
        (∀ f ∈ formats, f = [] ∨ f = defaultDate) ∧ formats.count defaultDate ≤ 1 := by
  constructor
  · intro h
    by_cases hempty : formats.flatten = []
    · rw [List.flatten_eq_nil_iff] at hempty
      refine .inr ⟨fun f hf => .inl (hempty f hf), ?_⟩
      rw [List.count_eq_zero_of_not_mem fun hmem => absurd (hempty _ hmem) (by decide)]
      exact Nat.zero_le 1
    -- a format that is not empty is then all of them together, so it stands alone
    · have hformats : ∀ f ∈ formats, f = [] ∨ f = formats.flatten := by
        intro f hf
        by_cases hf0 : f = []
        · exact .inl hf0
        · have heq := h f hf
          rw [dateFormat_of_ne hf0, dateFormat_of_ne hempty] at heq
          exact .inr heq
      have hone := count_joined hempty hformats
      by_cases hall : ∀ f ∈ formats, formats.flatten = f
      · exact .inl (List.count_eq_length.mpr hall ▸ hone.le)
      · push Not at hall
        obtain ⟨f, hf, hne⟩ := hall
        have hdefault : formats.flatten = defaultDate := by
          have heq := h f hf
          rw [(hformats f hf).resolve_right hne.symm, dateFormat_of_ne hempty] at heq
          exact heq.symm
        rw [hdefault] at hformats hone
        exact .inr ⟨hformats, hone.le⟩
  · rintro (hlength | ⟨hformats, hcount⟩) f hf
    · obtain ⟨g, rfl⟩ := List.length_eq_one_iff.mp
        (Nat.le_antisymm hlength (List.length_pos_of_mem hf))
      rw [List.mem_singleton.mp hf, List.flatten_singleton]
    · have hflatten := flatten_count (by decide) hformats
      rw [dateFormat_default (hformats f hf), dateFormat_default]
      rcases Nat.le_one_iff_eq_zero_or_eq_one.mp hcount with hzero | hone
      · rw [hflatten, hzero]
        exact .inl rfl
      · rw [hflatten, hone]
        exact .inr (List.append_nil _)

theorem cStr_dateFormat {f : Str} (h : 0 ∉ f) : cStr (dateFormat f) = dateFormat f := by
  refine Http.cStr_of_not_mem ?_
  unfold dateFormat
  split
  · decide
  · exact h

/-- Formats without a terminator are the joined one if there is only one, or if they are all the
default format and no two of them spell it out. -/
theorem sharedFormat_iff {items : List Item} (h : ∀ f ∈ formatsOf items, 0 ∉ f) :
    SharedFormat items ↔
      (formatsOf items).length ≤ 1 ∨
        (∀ f ∈ formatsOf items, f = [] ∨ f = defaultDate) ∧
          (formatsOf items).count defaultDate ≤ 1 := by
  have hjoined : 0 ∉ (formatsOf items).flatten := by
    intro hmem
    obtain ⟨f, hf, hzero⟩ := List.mem_flatten.mp hmem
    exact h f hf hzero
  rw [← same_format_iff]
  refine forall₂_congr fun f hf => ?_
  rw [cStr_dateFormat (h f hf), cStr_dateFormat hjoined]

theorem writeWith_date {strftime : Str → Int → Str} {event : LogEvent} {item : Item} {f : Str}
    (h : item.format = some f) (shared : Str) :
    item.writeWith strftime event shared = strftime (cStr (dateFormat shared)) event.time := by
  cases item with
  | literal str _ => cases h
  | plain c _ => cases h
  | date => rfl
  | dateWith format _ => rfl

theorem writeWith_text {strftime : Str → Int → Str} {event : LogEvent} {item : Item}
    (h : item.format = none) (shared : Str) :
    item.writeWith strftime event shared = item.write strftime event := by
  cases item with
  | literal str _ => rfl
  | plain c _ => rfl
  | date => cases h
  | dateWith format _ => cases h

theorem write_date {strftime : Str → Int → Str} {event : LogEvent} {item : Item} {f : Str}
    (h : item.format = some f) :
    item.write strftime event = strftime (cStr (dateFormat f)) event.time := by
  unfold Item.write
  rw [writeWith_date h, h]
  rfl

theorem mem_formatsOf {items : List Item} {item : Item} {f : Str} (hmem : item ∈ items)
    (h : item.format = some f) : f ∈ formatsOf items :=
  List.mem_filterMap.mpr ⟨item, hmem, h⟩

/-- Only dates are written differently, so that it is enough if `strftime` makes the same text of
the joined format as of each. -/
theorem composes_same_text {strftime : Str → Int → Str} {event : LogEvent} {items : List Item}
    (h : ∀ f ∈ formatsOf items, strftime (cStr (dateFormat f)) event.time =
      strftime (cStr (dateFormat (formatsOf items).flatten)) event.time)
    (hsep : Separated items []) (hknown : ∀ item ∈ items, item.Known) :
    Composes strftime event items ↔ DatesFit strftime event items := by
  have hwritten : items.flatMap (Item.writeWith strftime event (formatsOf items).flatten) =
      items.flatMap (Item.write strftime event) := by
    refine List.flatMap_congr fun item hmem => ?_
    cases hformat : item.format with
    | none => exact writeWith_text hformat _
    | some f => rw [writeWith_date hformat, write_date hformat, h f (mem_formatsOf hmem hformat)]
  rw [composes_iff hsep hknown]
  refine (and_iff_left hwritten).trans (forall₂_congr fun f hf => ?_)
  unfold DateFits
  rw [h f hf]

theorem composes_shared {items : List Item} (h : SharedFormat items) (hsep : Separated items [])
    (hknown : ∀ item ∈ items, item.Known) (strftime : Str → Int → Str) (event : LogEvent) :
    Composes strftime event items ↔ DatesFit strftime event items :=
  composes_same_text (fun f hf => by rw [h f hf]) hsep hknown

theorem length_flatMap_lt {f g : Item → Str} {items : List Item}
    (hle : ∀ item ∈ items, (f item).length ≤ (g item).length)
    (hlt : ∃ item ∈ items, (f item).length < (g item).length) :
    (items.flatMap f).length < (items.flatMap g).length := by
  rw [List.length_flatMap, List.length_flatMap]
  exact List.sum_lt_sum _ _ hle hlt

/-- Writes nothing in the format `shared`, and one byte in any other one. -/
def tellApart (shared : Str) : Str → Int → Str := fun format _ =>
  if format = shared then [] else [0x2a]

theorem tellApart_length (shared format : Str) (time : Int) :
    (tellApart shared format time).length ≤ 1 := by
  unfold tellApart
  split <;> decide

/-- Where the formats differ, a longer text of one of them shows it. -/
theorem not_composes {items : List Item} (h : ¬ SharedFormat items) (hsep : Separated items [])
    (hknown : ∀ item ∈ items, item.Known) (event : LogEvent) :
    ∃ strftime, DatesFit strftime event items ∧ ¬ Composes strftime event items := by
  refine ⟨tellApart (cStr (dateFormat (formatsOf items).flatten)), fun f _ => ?_, ?_⟩
  · exact Nat.lt_of_le_of_lt (tellApart_length _ _ _) (by decide)
  · rw [composes_iff hsep hknown]
    rintro ⟨-, heq⟩
    refine Nat.ne_of_lt (length_flatMap_lt ?_ ?_) (congrArg List.length heq)
    · intro item _
      cases hformat : item.format with
      | none => rw [writeWith_text hformat]
      | some f =>
          rw [writeWith_date hformat]
          unfold tellApart
          rw [if_pos rfl]
          exact Nat.zero_le _
    · unfold SharedFormat at h
      push Not at h
      obtain ⟨f, hf, hne⟩ := h
      obtain ⟨item, hmem, hformat⟩ := List.mem_filterMap.mp hf
      refine ⟨item, hmem, ?_⟩
      rw [writeWith_date hformat, write_date hformat]
      unfold tellApart
      rw [if_pos rfl, if_neg hne]
      decide

/-- Formatting is compositional, for dates that fit, exactly when the dates share a format; and
then only for dates that fit. -/
theorem format_compositional {items : List Item} (hsep : Separated items [])
    (hknown : ∀ item ∈ items, item.Known) :
    ((∀ strftime event, DatesFit strftime event items → Composes strftime event items) ↔
        SharedFormat items) ∧
      (SharedFormat items → ∀ strftime event,
        Composes strftime event items ↔ DatesFit strftime event items) := by
  have hshared : SharedFormat items → ∀ strftime event,
      Composes strftime event items ↔ DatesFit strftime event items :=
    fun h => composes_shared h hsep hknown
  refine ⟨⟨fun hall => ?_, fun h strftime event => (hshared h strftime event).mpr⟩, hshared⟩
  by_contra hno
  obtain ⟨strftime, hfit, hnot⟩ := not_composes hno hsep hknown
    ⟨.INFO, [], [], 0, 0, 0, 0, 0, [], []⟩
  exact hnot (hall strftime _ hfit)

def timeAndMessage : List Item :=
  [.dateWith (bytes "%H:%M") (forall_ne_of_not_mem (by decide)), .plain 'm' (by decide)]

theorem format_compositional_time :
    SharedFormat timeAndMessage ∧ ∀ strftime event,
      Composes strftime event timeAndMessage ↔ DatesFit strftime event timeAndMessage := by
  have hsep : Separated timeAndMessage [] := trivial
  have hknown : ∀ item ∈ timeAndMessage, item.Known := by
    intro item hmem
    rcases List.mem_pair.mp hmem with rfl | rfl
    · exact trivial
    · show ('m' : UInt8) ∈ itemLetters
      decide
  have hshared : SharedFormat timeAndMessage := by
    intro f hf
    rw [List.mem_singleton.mp hf]
    rfl
  exact ⟨hshared, (format_compositional hsep hknown).2 hshared⟩

/-- Half past twelve, in three formats. -/
def halfPastTwelve : Str → Int → Str := fun format _ =>
  if format = bytes "%H" then bytes "12"
  else if format = bytes "%M" then bytes "30"
  else if format = bytes "%H%M" then bytes "1230"
  else []

def hourAndMinute : List Item :=
  [.dateWith (bytes "%H") (forall_ne_of_not_mem (by decide)), .plain 'T' (by decide),
    .dateWith (bytes "%M") (forall_ne_of_not_mem (by decide))]

/-- The hour and the minute with a tab in between: both dates are written as `%H%M`. -/
theorem format_compositional_two_dates :
    textOf hourAndMinute = bytes "%d\x7b%H\x7d%T%d\x7b%M\x7d" ∧ Separated hourAndMinute [] ∧
      (∀ item ∈ hourAndMinute, item.Known) ∧
      ∃ event, DatesFit halfPastTwelve event hourAndMinute ∧
        hourAndMinute.flatMap (Item.write halfPastTwelve event) = bytes "12\t30" ∧
        (LogFormatter.new (textOf hourAndMinute)).map
          (fun fm => fm.format halfPastTwelve event) = some (some (bytes "1230\t1230")) ∧
        ¬ Composes halfPastTwelve event hourAndMinute := by
  have hsep : Separated hourAndMinute [] := trivial
  have hknown : ∀ item ∈ hourAndMinute, item.Known := by
    intro item hmem
    rcases List.mem_cons.mp hmem with rfl | hmem
    · exact trivial
    · rcases List.mem_pair.mp hmem with rfl | rfl
      · show ('T' : UInt8) ∈ itemLetters
        decide
      · exact trivial
  refine ⟨by decide +kernel, hsep, hknown, ⟨.INFO, [], [], 0, 0, 0, 0, 45000, [], []⟩, ?_,
    by decide +kernel, by decide +kernel, ?_⟩
  · intro f hf
    rcases List.mem_pair.mp hf with rfl | rfl
    · show (bytes "12").length < 64
      decide
    · show (bytes "30").length < 64
      decide
  · rw [composes_iff hsep hknown]
    rintro ⟨-, hwritten⟩
    exact absurd hwritten (by decide +kernel)

end Gxh.Log
