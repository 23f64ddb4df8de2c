import Gxh.Http.FormEncoding
import Gxh.Lib.Trimming

/-!
# `PARSE_PARAM` and the form grammar

The grammar of a query, a form or a list of cookies: cut the text at every separator, forget the
segments without a `=`, cut the others at their first `=` and decode both halves. `PARSE_PARAM`
looks for `=` past the separators, so that a segment without one becomes part of the next key
(`parseParam_eq`).

* `parse_eq_form_plain` — with no separators and no NUL in the keys, the two make the same map if
  and only if no segment without a `=` stands before one with it;
* `parse_eq_form_iff` — when they make the same map of any text, and that they insert the same
  entries in that case only.
-/

namespace Gxh.Http

open HttpParser OrdMap

/-- What `PARSE_PARAM` is used for: the query and the body, or the cookies. -/
inductive ParamText
  | params
  | cookies
  deriving DecidableEq, Repr

namespace ParamText

def flag : ParamText → UInt8
  | params => '&'
  | cookies => ';'

def trim : ParamText → List UInt8 → List UInt8
  | params => id
  | cookies => StringUtil.trim

/-- The map that `PARSE_PARAM` makes of a text. -/
def parse (t : ParamText) (str : List UInt8) : ParamMap :=
  Map.empty.insertAll ranks_caseKey (parseParam t.flag t.trim str)

/-- One segment, by the grammar. -/
def cutSegment (t : ParamText) (seg : List UInt8) : Option Pair :=
  if ('=' : UInt8) ∈ seg then
    some (StringUtil.urlDecode (t.trim (seg.takeWhile (· ≠ ('=' : UInt8)))),
      StringUtil.urlDecode (seg.dropWhile (· ≠ ('=' : UInt8))).tail)
  else none

/-- The entries of a text, by the grammar. -/
def formEntries (t : ParamText) (str : List UInt8) : List Pair :=
  (str.splitOn t.flag).filterMap t.cutSegment

/-- The map of a text, by the grammar. -/
def form (t : ParamText) (str : List UInt8) : ParamMap :=
  Map.empty.insertAll ranks_caseKey (t.formEntries str)

end ParamText

/-! ## Segments -/

/-- A segment with a `=`, cut at the first, and the segments without one just before it. -/
structure Segment where
  dropped : List (List UInt8)
  key : List UInt8
  val : List UInt8
  deriving DecidableEq, Repr

/-- The segments with a `=`; `dropped` are the ones without since the last. -/
def segmentsFrom (dropped : List (List UInt8)) : List (List UInt8) → List Segment
  | [] => []
  | seg :: rest =>
      if ('=' : UInt8) ∈ seg then
        { dropped, key := seg.takeWhile (· ≠ ('=' : UInt8))
          val := (seg.dropWhile (· ≠ ('=' : UInt8))).tail } :: segmentsFrom [] rest
      else segmentsFrom (dropped ++ [seg]) rest

/-- Segments with the separators behind them. -/
def lead (flag : UInt8) (dropped : List (List UInt8)) : List UInt8 :=
  dropped.flatMap (· ++ [flag])

namespace ParamText

variable (t : ParamText)

def segments (str : List UInt8) : List Segment := segmentsFrom [] (str.splitOn t.flag)

/-- The entry of a segment. -/
def ownEntry (g : Segment) : Pair :=
  (StringUtil.urlDecode (t.trim g.key), StringUtil.urlDecode g.val)

/-- Its entry with everything since the segment before in the key. -/
def mergedEntry (g : Segment) : Pair :=
  (StringUtil.urlDecode (t.trim (lead t.flag g.dropped ++ g.key)), StringUtil.urlDecode g.val)

end ParamText

variable {t : ParamText} {str : List UInt8}

theorem flag_ne_eq (t : ParamText) : ('=' : UInt8) ≠ t.flag := by
  cases t with
  | params => decide
  | cookies => decide

theorem lead_concat (flag : UInt8) (dropped : List (List UInt8)) (seg : List UInt8) :
    lead flag (dropped ++ [seg]) = lead flag dropped ++ seg ++ [flag] := by
  simp [lead, List.flatMap_append]

theorem eq_not_mem_lead {dropped : List (List UInt8)} (h : ∀ d ∈ dropped, ('=' : UInt8) ∉ d) :
    ('=' : UInt8) ∉ lead t.flag dropped := by
  intro hmem
  obtain ⟨d, hd, hin⟩ := List.mem_flatMap.mp hmem
  rcases List.mem_append.mp hin with hin | hin
  · exact h d hd hin
  · exact flag_ne_eq t (List.mem_singleton.mp hin)

theorem filterMap_cutSegment (segs dropped : List (List UInt8)) :
    segs.filterMap t.cutSegment = (segmentsFrom dropped segs).map t.ownEntry := by
  induction segs generalizing dropped with
  | nil => rfl
  | cons seg rest ih =>
      by_cases heq : ('=' : UInt8) ∈ seg
      · rw [List.filterMap_cons_some (by rw [ParamText.cutSegment, if_pos heq]), segmentsFrom,
          if_pos heq, List.map_cons, ← ih]
        rfl
      · rw [List.filterMap_cons_none (by rw [ParamText.cutSegment, if_neg heq]), segmentsFrom,
          if_neg heq, ← ih]

/-- What the grammar finds is the entries of the segments. -/
theorem formEntries_eq : t.formEntries str = (t.segments str).map t.ownEntry :=
  filterMap_cutSegment _ _

/-- One round takes a key up to the next `=`, whatever separators are in it. -/
theorem parseParam_entry {key val : List UInt8} (hkey : ('=' : UInt8) ∉ key) (hval : t.flag ∉ val)
    (rest : List UInt8) :
    parseParam t.flag t.trim (key ++ ('=' : UInt8) :: (val ++ t.flag :: rest)) =
      (StringUtil.urlDecode (t.trim key), StringUtil.urlDecode val) ::
        parseParam t.flag t.trim rest := by
  obtain ⟨htake, hdrop⟩ := takeWhile_ne_append hkey (val ++ t.flag :: rest)
  obtain ⟨htake', hdrop'⟩ := takeWhile_ne_append hval rest
  rw [parseParam_round]
  simp only [hdrop, htake, htake', hdrop']

theorem parseParam_last {key val : List UInt8} (hkey : ('=' : UInt8) ∉ key) (hval : t.flag ∉ val) :
    parseParam t.flag t.trim (key ++ ('=' : UInt8) :: val) =
      [(StringUtil.urlDecode (t.trim key), StringUtil.urlDecode val)] := by
  obtain ⟨htake, hdrop⟩ := takeWhile_ne_append hkey val
  obtain ⟨htake', hdrop'⟩ := takeWhile_ne_self hval
  rw [parseParam_round]
  simp only [hdrop, htake, htake', hdrop']

theorem parseParam_none (h : ('=' : UInt8) ∉ str) : parseParam t.flag t.trim str = [] := by
  rw [parseParam_round, (takeWhile_ne_self h).2]

/-- The loop on a text of segments, of which it has passed some without a `=`. -/
theorem parseParam_segments {segs : List (List UInt8)} (dropped : List (List UInt8))
    (hsegs : ∀ seg ∈ segs, t.flag ∉ seg)
    (hdropped : ∀ d ∈ dropped, ('=' : UInt8) ∉ d) :
    parseParam t.flag t.trim (lead t.flag dropped ++ [t.flag].intercalate segs) =
      (segmentsFrom dropped segs).map t.mergedEntry := by
  induction segs generalizing dropped with
  | nil =>
      rw [List.intercalate_nil, List.append_nil, parseParam_none (eq_not_mem_lead hdropped)]
      rfl
  | cons seg rest ih =>
      have hseg := hsegs seg List.mem_cons_self
      have hrest := fun x hx => hsegs x (List.mem_cons_of_mem _ hx)
      rw [segmentsFrom]
      by_cases heq : ('=' : UInt8) ∈ seg
      · obtain ⟨key, val, rfl, hkey⟩ := exists_cut heq
        obtain ⟨htake, hdrop⟩ := takeWhile_ne_append hkey val
        have hval : t.flag ∉ val := fun hin => hseg (by simp [hin])
        have hlead : ('=' : UInt8) ∉ lead t.flag dropped ++ key := by
          rw [List.mem_append]
          exact not_or_intro (eq_not_mem_lead hdropped) hkey
        have hnext := ih [] hrest nofun
        rw [if_pos heq, htake, hdrop, List.tail_cons, List.map_cons]
        -- one round of the loop, and the last if no separator follows
        cases rest with
        | nil =>
            rw [List.intercalate_singleton, ← List.append_assoc, parseParam_last hlead hval]
            rfl
        | cons seg' rest =>
            rw [List.intercalate_cons_cons, List.append_assoc, List.append_assoc,
              List.cons_append, ← List.append_assoc]
            show parseParam _ _ (_ ++ ('=' : UInt8) :: (val ++ t.flag :: _)) = _
            rw [parseParam_entry hlead hval]
            exact congrArg _ hnext
      · -- the segment runs into the key of the next one that has a `=`, if there is one
        rw [if_neg heq]
        have hdropped' : ∀ d ∈ dropped ++ [seg], ('=' : UInt8) ∉ d := by
          intro d hd
          rcases List.mem_append.mp hd with hold | hnew
          · exact hdropped d hold
          · rw [List.mem_singleton.mp hnew]
            exact heq
        cases rest with
        | nil =>
            rw [List.intercalate_singleton]
            refine parseParam_none ?_
            rw [List.mem_append]
            exact not_or_intro (eq_not_mem_lead hdropped) heq
        | cons seg' rest =>
            rw [← ih _ hrest hdropped', lead_concat, List.intercalate_cons_cons, List.append_assoc,
              List.append_assoc, List.append_assoc]

theorem not_mem_of_mem_splitOn {c : UInt8} {s seg : List UInt8} (h : seg ∈ s.splitOn c) :
    c ∉ seg := by
  induction s generalizing seg with
  | nil =>
      rw [List.splitOn_nil] at h
      rw [List.mem_singleton.mp h]
      exact List.not_mem_nil
  | cons x rest ih =>
      rw [List.splitOn_cons_eq_if_modifyHead] at h
      split at h
      · rcases List.mem_cons.mp h with rfl | hrest
        · exact List.not_mem_nil
        · exact ih hrest
      · rename_i hx
        obtain ⟨head, tail, hsplit⟩ := List.exists_cons_of_ne_nil (List.splitOn_ne_nil c rest)
        rw [hsplit, List.modifyHead_cons] at h
        rcases List.mem_cons.mp h with rfl | hrest
        · have hhead : c ∉ head := ih (hsplit ▸ List.mem_cons_self)
          have hne : c ≠ x := fun hcx => hx (beq_iff_eq.mpr hcx.symm)
          exact List.not_mem_cons_of_ne_of_not_mem hne hhead
        · exact ih (hsplit ▸ List.mem_cons_of_mem _ hrest)

/-- What the loop inserts: the key of each segment has the segments without a `=` before it. -/
theorem parseParam_eq : parseParam t.flag t.trim str = (t.segments str).map t.mergedEntry := by
  have hsegs : ∀ seg ∈ str.splitOn t.flag, t.flag ∉ seg := fun _ => not_mem_of_mem_splitOn
  have h := parseParam_segments [] hsegs nofun
  rwa [List.intercalate_splitOn] at h

/-! ## Where the keys differ -/

/-- Nothing is decoded across a separator. -/
theorem decoded_append_flag (x y : List UInt8) :
    decoded true (x ++ t.flag :: y) = decoded true x ++ t.flag :: decoded true y := by
  have hplus : t.flag ≠ '+' := by cases t <;> decide
  have hpercent : t.flag ≠ '%' := by cases t <;> decide
  have hdigit : isxdigit t.flag = false := by cases t <;> decide
  induction x using decoded.induct true with
  | case1 => rw [List.nil_append, decoded_cons hplus hpercent, decoded, List.nil_append]
  | case2 c rest hc ih =>
      rw [List.cons_append, decoded_space hc, decoded_space hc, ih, List.cons_append]
  | case3 c hc a b rest hcode ih =>
      rw [List.cons_append, List.cons_append, List.cons_append, decoded_code hc hcode,
        decoded_code hc hcode, ih, List.cons_append]
  | case4 c hc a b rest hcode ih =>
      have hplain : ∀ (l : List UInt8) a' b' rest', a :: b :: l = a' :: b' :: rest' →
          ¬(c = '%' && isxdigit a' && isxdigit b') = true := by
        rintro l _ _ _ ⟨⟩
        exact hcode
      show decoded true (c :: (a :: b :: (rest ++ t.flag :: y))) = _
      rw [decoded_plain hc (hplain _), decoded_plain hc (hplain _)]
      exact congrArg _ ih
  | case5 c hc rest hshort ih =>
      -- the look-ahead meets the separator, which is no digit
      have hplain : ∀ a b rest', rest ++ t.flag :: y = a :: b :: rest' →
          ¬(c = '%' && isxdigit a && isxdigit b) = true := by
        intro a b rest' hrest
        cases rest with
        | nil =>
            cases hrest
            rw [hdigit, Bool.and_false, Bool.false_and]
            exact Bool.false_ne_true
        | cons a' rest =>
            cases rest with
            | nil =>
                cases hrest
                rw [hdigit, Bool.and_false]
                exact Bool.false_ne_true
            | cons b' rest => exact (hshort a' b' rest rfl).elim
      rw [List.cons_append, decoded_plain hc hplain,
        decoded_plain hc fun a b rest' hrest => (hshort a b rest' hrest).elim, ih,
        List.cons_append]

theorem isTrimmed_plain {c : UInt8} (h : isTrimmed c = true) : c ≠ '+' ∧ c ≠ '%' := by
  unfold isTrimmed at h
  simp only [Bool.or_eq_true, decide_eq_true_eq] at h
  rcases h with ((rfl | rfl) | rfl) | rfl <;> decide

/-- White space in front stays. -/
theorem decoded_dropWhile (x : List UInt8) :
    decoded true x = x.takeWhile isTrimmed ++ decoded true (x.dropWhile isTrimmed) := by
  induction x with
  | nil => rfl
  | cons c rest ih =>
      by_cases hc : isTrimmed c = true
      · obtain ⟨hplus, hpercent⟩ := isTrimmed_plain hc
        rw [List.takeWhile_cons_of_pos hc, List.dropWhile_cons_of_pos hc,
          decoded_cons hplus hpercent, ih, List.cons_append]
      · rw [List.takeWhile_cons_of_neg hc, List.dropWhile_cons_of_neg hc, List.nil_append]

theorem urlDecode_decoded (s : List UInt8) : StringUtil.urlDecode s = decoded true s := by
  rw [urlDecode_eq, urlDecodeWith_eq]

/-- Trimming leaves a separator and, up to white space in front, what is behind it. -/
theorem trim_flag (x s : List UInt8) :
    ∃ x' y, t.trim (x ++ t.flag :: s) = x' ++ t.flag :: y ∧
      (decoded true (t.trim s)).length ≤ (decoded true y).length := by
  cases t with
  | params => exact ⟨x, s, rfl, Nat.le_refl _⟩
  | cookies =>
      have hflag : isTrimmed ParamText.cookies.flag = false := by decide
      refine ⟨x.dropWhile isTrimmed, s.rdropWhile isTrimmed, ?_, ?_⟩
      · show StringUtil.trim _ = _
        rw [StringUtil.trim, Trimming.dropWhile_stop hflag, Trimming.rdropWhile_stop hflag]
      · show (decoded true (StringUtil.trim s)).length ≤ _
        rw [StringUtil.trim, Trimming.rdropWhile_dropWhile,
          decoded_dropWhile (s.rdropWhile isTrimmed), List.length_append]
        exact Nat.le_add_left _ _

/-- A key with segments before it has a separator, and at least the key itself behind it. -/
theorem mergedEntry_key {g : Segment} (h : g.dropped ≠ []) :
    ∃ x y, (t.mergedEntry g).1 = x ++ t.flag :: y ∧ (t.ownEntry g).1.length ≤ y.length := by
  obtain ⟨front, seg, hdropped⟩ := List.eq_nil_or_concat g.dropped |>.resolve_left h
  obtain ⟨x, y, htrim, hlen⟩ := trim_flag (t := t) (lead t.flag front ++ seg) g.key
  refine ⟨decoded true x, decoded true y, ?_, ?_⟩
  · show StringUtil.urlDecode (t.trim (lead t.flag g.dropped ++ g.key)) = _
    rw [hdropped, List.concat_eq_append, lead_concat, List.append_assoc, urlDecode_decoded]
    show decoded true (t.trim (lead t.flag front ++ seg ++ t.flag :: g.key)) = _
    rw [htrim, decoded_append_flag]
  · show (StringUtil.urlDecode (t.trim g.key)).length ≤ _
    rw [urlDecode_decoded]
    exact hlen

theorem mergedEntry_eq_iff {g : Segment} : t.mergedEntry g = t.ownEntry g ↔ g.dropped = [] := by
  constructor
  · intro heq
    by_contra hdropped
    obtain ⟨x, y, hkey, hlen⟩ := mergedEntry_key (t := t) hdropped
    rw [← heq, hkey, List.length_append, List.length_cons] at hlen
    omega
  · intro hdropped
    unfold ParamText.mergedEntry ParamText.ownEntry
    rw [hdropped]
    rfl

/-! ## Where the maps differ -/

/-- A segment that has others run into its key does no harm where both its keys, the one with them
and its own, are given the same entry by either reading: the first of the key. -/
def Harmless (t : ParamText) (str : List UInt8) : Prop :=
  ∀ g ∈ t.segments str, g.dropped ≠ [] →
    ∀ key, key = (t.mergedEntry g).1 ∨ key = (t.ownEntry g).1 →
      ((t.segments str).map t.mergedEntry).find? (fun e => strcaseEq e.1 key) =
        ((t.segments str).map t.ownEntry).find? fun e => strcaseEq e.1 key

/-- Elements that a search passes over may be mapped to different things. -/
theorem find?_map_congr {α β : Type} {f f' : α → β} {p : β → Bool} {l : List α}
    (h : ∀ x ∈ l, f x = f' x ∨ p (f x) = false ∧ p (f' x) = false) :
    (l.map f).find? p = (l.map f').find? p := by
  induction l with
  | nil => rfl
  | cons x rest ih =>
      have hrest := ih fun y hy => h y (List.mem_cons_of_mem _ hy)
      rw [List.map_cons, List.map_cons, List.find?_cons, List.find?_cons, hrest]
      rcases h x List.mem_cons_self with heq | ⟨hf, hf'⟩
      · rw [heq]
      · rw [hf, hf']

theorem strcaseEq_congr {a b : List UInt8} (h : strcaseEq a b = true) (x : List UInt8) :
    strcaseEq x a = strcaseEq x b := by
  rw [Bool.eq_iff_iff, strcaseEq_iff, strcaseEq_iff, (strcaseEq_iff a b).mp h]

/-- The maps agree when the first entries of every key do. -/
theorem parse_eq_form : t.parse str = t.form str ↔ ∀ key,
    ((t.segments str).map t.mergedEntry).find? (fun e => strcaseEq e.1 key) =
      ((t.segments str).map t.ownEntry).find? fun e => strcaseEq e.1 key := by
  unfold ParamText.parse ParamText.form
  rw [Map.insertAll_empty_inj, parseParam_eq, formEntries_eq]
  exact Iff.rfl

theorem tolower_flag {c : UInt8} (h : tolower c = t.flag) : c = t.flag := by
  unfold tolower at h
  split at h
  · rename_i hupper
    have hlow : 65 ≤ c.toNat := UInt8.le_iff_toNat_le.mp hupper.1
    have hhigh : c.toNat ≤ 90 := UInt8.le_iff_toNat_le.mp hupper.2
    have hsum := congrArg UInt8.toNat h
    rw [UInt8.toNat_add] at hsum
    have hflag : t.flag.toNat < 65 := by cases t <;> decide
    have hadded : (32 : UInt8).toNat = 32 := rfl
    omega
  · exact h

/-- The separator is in a key that has it up to case. -/
theorem flag_mem_of_caseKey {x y key : List UInt8} (hnul : 0 ∉ x ++ t.flag :: y)
    (h : caseKey key = caseKey (x ++ t.flag :: y)) : t.flag ∈ key := by
  have hin : (tolower t.flag).toNat ∈ caseKey key := by
    rw [h, caseKey, cStr_of_not_mem hnul]
    exact List.mem_map.mpr ⟨t.flag, by simp, rfl⟩
  obtain ⟨c, hc, hcase⟩ := List.mem_map.mp hin
  have hlower : tolower t.flag = t.flag := by cases t <;> decide
  have heq : c = t.flag := tolower_flag (hlower ▸ UInt8.toNat_inj.mp hcase)
  exact heq ▸ (List.takeWhile_prefix _).subset hc

/-- Where no key has a separator of its own and none has a NUL, a segment without a `=` before one
with it always shows. -/
theorem parse_eq_form_plain (hflag : ∀ g ∈ t.segments str, t.flag ∉ (t.ownEntry g).1)
    (hnul : ∀ g ∈ t.segments str, 0 ∉ (t.mergedEntry g).1) :
    t.parse str = t.form str ↔ ∀ g ∈ t.segments str, g.dropped = [] := by
  rw [parse_eq_form]
  constructor
  · intro hall g hg
    by_contra hdropped
    obtain ⟨x, y, hkey, -⟩ := mergedEntry_key (t := t) hdropped
    have hself : strcaseEq (t.mergedEntry g).1 (t.mergedEntry g).1 = true :=
      (strcaseEq_iff _ _).mpr rfl
    cases hfind : ((t.segments str).map t.mergedEntry).find?
        (fun e => strcaseEq e.1 (t.mergedEntry g).1) with
    | none => exact List.find?_eq_none.mp hfind _ (List.mem_map_of_mem hg) hself
    | some e =>
        -- the same entry is found by the grammar, under a key without separator
        have hown := (hall (t.mergedEntry g).1).symm.trans hfind
        obtain ⟨g', hg', rfl⟩ := List.mem_map.mp (List.mem_of_find?_eq_some hown)
        have hsame : strcaseEq (t.ownEntry g').1 (t.mergedEntry g).1 = true := by
          have hfound := List.find?_some hfind
          exact hfound
        have hcase := (strcaseEq_iff _ _).mp hsame
        have hnul' := hnul g hg
        rw [hkey] at hcase hnul'
        exact hflag g' hg' (flag_mem_of_caseKey hnul' hcase)
  · intro hnone key
    exact find?_map_congr fun g hg => .inl (mergedEntry_eq_iff.mpr (hnone g hg))

/-- The map is that of the grammar where the segments without a `=` do no harm, and the entries
are those of the grammar where there are none before a segment with a `=`; and so is the map, where
no key has a separator of its own or a NUL. -/
theorem parse_eq_form_iff (t : ParamText) (str : List UInt8) :
    (t.parse str = t.form str ↔ Harmless t str) ∧
    (parseParam t.flag t.trim str = t.formEntries str ↔
      ∀ g ∈ t.segments str, g.dropped = []) ∧
    ((∀ g ∈ t.segments str, t.flag ∉ (t.ownEntry g).1) →
      (∀ g ∈ t.segments str, 0 ∉ (t.mergedEntry g).1) →
        (t.parse str = t.form str ↔ ∀ g ∈ t.segments str, g.dropped = [])) := by
  refine ⟨?_, ?_, parse_eq_form_plain⟩
  · rw [parse_eq_form]
    constructor
    · exact fun hall g _ _ key _ => hall key
    · intro hharmless key
      by_cases hmeet : ∃ g ∈ t.segments str, g.dropped ≠ [] ∧
          (strcaseEq (t.mergedEntry g).1 key = true ∨ strcaseEq (t.ownEntry g).1 key = true)
      · obtain ⟨g, hg, hdropped, hkey | hkey⟩ := hmeet
        · have hfirst := hharmless g hg hdropped _ (.inl rfl)
          simp only [strcaseEq_congr hkey] at hfirst
          exact hfirst
        · have hfirst := hharmless g hg hdropped _ (.inr rfl)
          simp only [strcaseEq_congr hkey] at hfirst
          exact hfirst
      · -- no segment with others in its key has this key by either reading
        refine find?_map_congr fun g hg => ?_
        by_cases hdropped : g.dropped = []
        · exact .inl (mergedEntry_eq_iff.mpr hdropped)
        · refine .inr ⟨Bool.eq_false_iff.mpr ?_, Bool.eq_false_iff.mpr ?_⟩
          · exact fun hkey => hmeet ⟨g, hg, hdropped, .inl hkey⟩
          · exact fun hkey => hmeet ⟨g, hg, hdropped, .inr hkey⟩
  · rw [parseParam_eq, formEntries_eq, List.map_inj_left]
    exact forall₂_congr fun g _ => mergedEntry_eq_iff

/-- `a&b=c`: the key is `a&b`, where the grammar has `b`. -/
theorem amp_in_key :
    ParamText.params.parse (bytes "a&b=c") ≠ ParamText.params.form (bytes "a&b=c") := by
  intro h
  have hentries := congrArg Map.entries h
  revert hentries
  decide

end Gxh.Http
