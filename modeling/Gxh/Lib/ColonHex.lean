import Mathlib.Algebra.Group.Nat.Defs
import Mathlib.Data.List.Basic
import Mathlib.Data.List.Infix
import Gxh.Lib.Lines

/-!
# Numbers in groups of hexadecimal digits

The text form of IPv6 addresses: eight groups of one to four hexadecimal digits with colons between
them, where one run of zero groups may be left out for a double colon.

* `Denotes t vs` — `t` is such a text, of the eight numbers `vs`;
* `Denotes.unique` — a text has only one reading. A side of a double colon neither ends in a colon
  nor has a double colon in it (`Side.plain`), so that the double colon stands in one place.
-/

namespace Gxh.ColonHex

def colon : UInt8 := 58

/-- The value of a hexadecimal digit in either case. -/
def hexValue (c : UInt8) : Option Nat :=
  if 48 ≤ c ∧ c ≤ 57 then some (c.toNat - 48)
  else if 97 ≤ c ∧ c ≤ 102 then some (c.toNat - 87)
  else if 65 ≤ c ∧ c ≤ 70 then some (c.toNat - 55)
  else none

/-- Digits after a number read so far. -/
def readHex (acc : Nat) : List UInt8 → Option Nat
  | [] => some acc
  | c :: rest => (hexValue c).bind fun d => readHex (acc * 16 + d) rest

/-- The number of one to four digits. -/
def groupValue (t : List UInt8) : Option Nat :=
  if t ≠ [] ∧ t.length ≤ 4 then readHex 0 t else none

/-- Groups with a colon between any two of them. -/
inductive Groups : List UInt8 → List Nat → Prop
  | one {t : List UInt8} {v : Nat} : groupValue t = some v → Groups t [v]
  | cons {t rest : List UInt8} {v : Nat} {vs : List Nat} : groupValue t = some v →
      Groups rest vs → Groups (t ++ colon :: rest) (v :: vs)

/-- One side of a double colon. -/
def Side (t : List UInt8) (vs : List Nat) : Prop := t = [] ∧ vs = [] ∨ Groups t vs

inductive Denotes : List UInt8 → List Nat → Prop
  | full {t : List UInt8} {vs : List Nat} : Groups t vs → vs.length = 8 → Denotes t vs
  | zeros {front back : List UInt8} {fs bs : List Nat} {n : Nat} : Side front fs → Side back bs →
      0 < n → fs.length + n + bs.length = 8 →
      Denotes (front ++ colon :: colon :: back) (fs ++ List.replicate n 0 ++ bs)

/-! ## Groups -/

theorem hexValue_colon : hexValue colon = none := by decide

theorem readHex_of_mem_colon {t : List UInt8} (h : colon ∈ t) (acc : Nat) :
    readHex acc t = none := by
  induction t generalizing acc with
  | nil => cases h
  | cons c rest ih =>
      rw [readHex]
      rcases List.mem_cons.mp h with rfl | hrest
      · rw [hexValue_colon]
        rfl
      · cases hexValue c with
        | none => rfl
        | some d => exact ih hrest _

theorem groupValue_ne_nil {t : List UInt8} {v : Nat} (h : groupValue t = some v) : t ≠ [] := by
  rintro rfl
  cases h

theorem colon_not_mem {t : List UInt8} {v : Nat} (h : groupValue t = some v) : colon ∉ t := by
  intro hmem
  unfold groupValue at h
  rw [readHex_of_mem_colon hmem, ite_self] at h
  cases h

/-- Where the first colon stands. -/
theorem first_colon {t t' x x' : List UInt8} (ht : colon ∉ t) (ht' : colon ∉ t')
    (h : t ++ colon :: x = t' ++ colon :: x') : t = t' ∧ x = x' := by
  induction t generalizing t' with
  | nil =>
      cases t' with
      | nil => exact ⟨rfl, (List.cons.inj h).2⟩
      | cons c t' => exact absurd (List.mem_cons.mpr (.inl (List.cons.inj h).1)) ht'
  | cons c t ih =>
      cases t' with
      | nil => exact absurd (List.mem_cons.mpr (.inl (List.cons.inj h).1.symm)) ht
      | cons c' t' =>
          obtain ⟨rfl, hrest⟩ := List.cons.inj h
          obtain ⟨rfl, rfl⟩ := ih (mt (List.mem_cons_of_mem _) ht)
            (mt (List.mem_cons_of_mem _) ht') hrest
          exact ⟨rfl, rfl⟩

theorem Groups.snoc {t x : List UInt8} {vs : List Nat} {v : Nat} (h : Groups t vs)
    (hv : groupValue x = some v) : Groups (t ++ colon :: x) (vs ++ [v]) := by
  induction h with
  | one hone => exact .cons hone (.one hv)
  | cons hone _ ih =>
      rw [List.append_assoc, List.cons_append]
      exact .cons hone ih

theorem Groups.unique {t : List UInt8} {vs ws : List Nat} (h : Groups t vs) (h' : Groups t ws) :
    vs = ws := by
  induction h generalizing ws with
  | one hv =>
      cases h' with
      | one hw => rw [Option.some.inj (hv.symm.trans hw)]
      | cons => exact absurd (List.mem_append_right _ List.mem_cons_self) (colon_not_mem hv)
  | @cons t rest v vs hv _ ih =>
      generalize htext : t ++ colon :: rest = text at h'
      cases h' with
      | one hw =>
          rw [← htext] at hw
          exact absurd (List.mem_append_right _ List.mem_cons_self) (colon_not_mem hw)
      | cons hw hrest =>
          obtain ⟨rfl, rfl⟩ := first_colon (colon_not_mem hv) (colon_not_mem hw) htext
          rw [Option.some.inj (hv.symm.trans hw), ih hrest]

theorem Groups.ne_nil {t : List UInt8} {vs : List Nat} (h : Groups t vs) : t ≠ [] := by
  cases h with
  | one hv => exact groupValue_ne_nil hv
  | cons => exact List.append_ne_nil_of_right_ne_nil _ (List.cons_ne_nil _ _)

/-- Neither a colon at an end nor two in a row. -/
structure Plain (t : List UInt8) : Prop where
  first : t.head? ≠ some colon
  last : t.getLast? ≠ some colon
  single : ¬ [colon, colon] <:+: t

theorem plain_of_not_mem {t : List UInt8} (h : colon ∉ t) : Plain t where
  first hhead := h (List.mem_of_mem_head? hhead)
  last hlast := h (List.mem_of_mem_getLast? hlast)
  single hpart := h (hpart.subset List.mem_cons_self)

theorem single_append {t rest : List UInt8} (ht : colon ∉ t)
    (h : ¬ [colon, colon] <:+: rest) : ¬ [colon, colon] <:+: t ++ rest := by
  rw [← Lines.unbroken_iff] at h ⊢
  rw [Lines.unbroken_append_of_not_mem ht]
  exact h

theorem Plain.append {t rest : List UInt8} (h : Plain rest) (ht : colon ∉ t) (hne : t ≠ [])
    (hrest : rest ≠ []) : Plain (t ++ colon :: rest) where
  first := by
    rw [List.head?_append_of_ne_nil _ hne]
    exact (plain_of_not_mem ht).first
  last := by
    obtain ⟨c, l, rfl⟩ := List.exists_cons_of_ne_nil hrest
    rw [List.getLast?_append_of_ne_nil _ (List.cons_ne_nil _ _), List.getLast?_cons_cons]
    exact h.last
  single := by
    refine single_append ht fun hpart => ?_
    rcases List.infix_cons_iff.mp hpart with hprefix | hin
    · obtain ⟨c, l, rfl⟩ := List.exists_cons_of_ne_nil hrest
      obtain ⟨-, htail⟩ := List.cons_prefix_cons.mp hprefix
      exact h.first (congrArg some (List.cons_prefix_cons.mp htail).1.symm)
    · exact h.single hin

theorem Groups.plain {t : List UInt8} {vs : List Nat} (h : Groups t vs) : Plain t := by
  induction h with
  | one hv => exact plain_of_not_mem (colon_not_mem hv)
  | cons hv hrest ih => exact ih.append (colon_not_mem hv) (groupValue_ne_nil hv) hrest.ne_nil

theorem Side.plain {t : List UInt8} {vs : List Nat} (h : Side t vs) : Plain t := by
  rcases h with ⟨rfl, -⟩ | hgroups
  · exact plain_of_not_mem nofun
  · exact hgroups.plain

theorem Side.unique {t : List UInt8} {vs ws : List Nat} (h : Side t vs) (h' : Side t ws) :
    vs = ws := by
  rcases h with ⟨rfl, rfl⟩ | hv
  · rcases h' with ⟨-, rfl⟩ | hw
    · rfl
    · exact absurd rfl hw.ne_nil
  · rcases h' with ⟨rfl, -⟩ | hw
    · exact absurd rfl hv.ne_nil
    · exact hv.unique hw

/-- What is in front of the double colon cannot be longer. -/
theorem Plain.append_eq_nil {front m back back' : List UInt8} (h : Plain (front ++ m))
    (heq : colon :: colon :: back = m ++ colon :: colon :: back') : m = [] := by
  match m with
  | [] => rfl
  | [c] =>
      obtain ⟨rfl, -⟩ := List.cons.inj heq
      exact absurd List.getLast?_concat h.last
  | c :: c' :: m =>
      obtain ⟨rfl, htail⟩ := List.cons.inj heq
      obtain ⟨rfl, -⟩ := List.cons.inj htail
      exact absurd ⟨front, m, by simp⟩ h.single

/-- The double colon stands in one place. -/
theorem double_colon {front front' back back' : List UInt8} (h : Plain front) (h' : Plain front')
    (heq : front ++ colon :: colon :: back = front' ++ colon :: colon :: back') :
    front = front' ∧ back = back' := by
  rcases List.append_eq_append_iff.mp heq with ⟨m, rfl, hm⟩ | ⟨m, rfl, hm⟩
  · obtain rfl := h'.append_eq_nil hm
    rw [List.nil_append] at hm
    exact ⟨(List.append_nil _).symm, (List.cons.inj (List.cons.inj hm).2).2⟩
  · obtain rfl := h.append_eq_nil hm
    rw [List.nil_append] at hm
    exact ⟨List.append_nil _, (List.cons.inj (List.cons.inj hm).2).2.symm⟩

theorem Groups.no_double_colon {front back : List UInt8} {vs : List Nat} :
    ¬ Groups (front ++ colon :: colon :: back) vs := by
  intro h
  exact h.plain.single ⟨front, back, by simp⟩

theorem Denotes.unique {t : List UInt8} {vs ws : List Nat} (h : Denotes t vs)
    (h' : Denotes t ws) : vs = ws := by
  cases h with
  | full hv =>
      cases h' with
      | full hw => exact hv.unique hw
      | zeros => exact absurd hv Groups.no_double_colon
  | @zeros front back fs bs n hfront hback hn hlen =>
      generalize htext : front ++ colon :: colon :: back = text at h'
      cases h' with
      | full hw =>
          rw [← htext] at hw
          exact absurd hw Groups.no_double_colon
      | @zeros front' back' fs' bs' n' hfront' hback' hn' hlen' =>
          -- there is one place at most for the double colon
          obtain ⟨rfl, rfl⟩ := double_colon hfront.plain hfront'.plain htext
          obtain rfl := hfront.unique hfront'
          obtain rfl := hback.unique hback'
          rw [show n = n' by omega]

/-! ## Writing -/

/-- `os << std::hex << n`. -/
def hexadecimal (n : Nat) : List UInt8 := (Nat.toDigits 16 n).map Char.toUInt8

theorem hexValue_digitChar : ∀ d < 16, hexValue (Nat.digitChar d).toUInt8 = some d := by decide

theorem readHex_append (acc : Nat) (l r : List UInt8) :
    readHex acc (l ++ r) = (readHex acc l).bind fun n => readHex n r := by
  induction l generalizing acc with
  | nil => rfl
  | cons c rest ih =>
      simp only [List.cons_append, readHex]
      cases hexValue c with
      | none => rfl
      | some d => exact ih _

theorem readHex_hexadecimal (n : Nat) : readHex 0 (hexadecimal n) = some n := by
  induction n using Nat.strongRecOn with
  | ind n ih =>
      by_cases hlt : n < 16
      · rw [hexadecimal, Nat.toDigits_of_lt_base hlt, List.map_singleton, readHex,
          hexValue_digitChar n hlt]
        rw [Option.bind_some, readHex, Nat.zero_mul, Nat.zero_add]
      · have hmod : n % 16 < 16 := Nat.mod_lt _ (by decide)
        have hrest : readHex 0 (hexadecimal (n / 16)) = some (n / 16) := ih (n / 16) (by omega)
        rw [hexadecimal, Nat.toDigits_of_base_le (by decide) (by omega), List.map_append,
          readHex_append]
        show ((readHex 0 (hexadecimal (n / 16))).bind _) = _
        rw [hrest, Option.bind_some, List.map_singleton, readHex, hexValue_digitChar _ hmod,
          Option.bind_some, readHex]
        congr 1
        omega

theorem groupValue_hexadecimal {n : Nat} (h : n < 16 ^ 4) :
    groupValue (hexadecimal n) = some n := by
  have hne : hexadecimal n ≠ [] := mt List.map_eq_nil_iff.mp Nat.toDigits_ne_nil
  have hlen : (hexadecimal n).length ≤ 4 := by
    rw [hexadecimal, List.length_map]
    exact (Nat.length_toDigits_le_iff (by decide) (by decide)).mpr h
  rw [groupValue, if_pos ⟨hne, hlen⟩, readHex_hexadecimal]

/-- The text of some groups when the first zeros are left out: not yet, or in the past. Zeros at
the end that nothing follows are still open. -/
inductive Written : Bool → List UInt8 → List Nat → Prop
  | before {t : List UInt8} {fs : List Nat} {n : Nat} : Side t fs → (∀ v ∈ fs, v ≠ 0) →
      Written false t (fs ++ List.replicate n 0)
  | behind {front back : List UInt8} {fs bs : List Nat} {n : Nat} : Side front fs → 0 < n →
      Groups back bs → Written true (front ++ colon :: colon :: back)
        (fs ++ List.replicate n 0 ++ bs)

namespace Written

variable {t x : List UInt8} {vs : List Nat} {v : Nat}

/-- Numbers that are not zero, with nothing open. -/
theorem closed {fs : List Nat} (h : Side t fs) (hne : ∀ v ∈ fs, v ≠ 0) : Written false t fs := by
  have hwritten := before (n := 0) h hne
  rwa [List.replicate_zero, List.append_nil] at hwritten

theorem start : Written false [] [] := closed (.inl ⟨rfl, rfl⟩) nofun

/-- A zero before the double colon is not written. -/
theorem skip (h : Written false t vs) : Written false t (vs ++ [0]) := by
  cases h with
  | before hside hne =>
      rw [List.append_assoc, ← List.replicate_succ']
      exact before hside hne

/-- The open zeros: there are some exactly if the last number is a zero. -/
theorem exists_open (h : Written false t vs) : ∃ fs n, vs = fs ++ List.replicate n 0 ∧
    Side t fs ∧ (∀ v ∈ fs, v ≠ 0) ∧ (vs.getLast? = some 0 ↔ 0 < n) := by
  cases h with
  | @before _ fs n hside hne =>
      refine ⟨fs, n, rfl, hside, hne, ?_⟩
      cases n with
      | zero =>
          refine iff_of_false (fun hlast => ?_) (Nat.lt_irrefl 0)
          rw [List.replicate_zero, List.append_nil] at hlast
          exact hne 0 (List.mem_of_mem_getLast? hlast) rfl
      | succ n =>
          refine iff_of_true ?_ (Nat.succ_pos n)
          rw [List.replicate_succ', ← List.append_assoc, List.getLast?_concat]

theorem text_nil (h : Written false t []) : t = [] := by
  obtain ⟨fs, n, hnil, hside, -, -⟩ := h.exists_open
  obtain ⟨rfl, -⟩ := List.append_eq_nil_iff.mp hnil.symm
  rcases hside with ⟨rfl, -⟩ | hgroups
  · rfl
  · cases hgroups

/-- A number behind open zeros closes them with the double colon. -/
theorem close (h : Written false t vs) (hlast : vs.getLast? = some 0)
    (hx : groupValue x = some v) : Written true (t ++ colon :: colon :: x) (vs ++ [v]) := by
  obtain ⟨fs, n, rfl, hside, -, hopen⟩ := h.exists_open
  exact behind hside (hopen.mp hlast) (.one hx)

theorem one (hx : groupValue x = some v) (hv : v ≠ 0) : Written false x [v] :=
  closed (.inr (.one hx)) fun _ hu => List.mem_singleton.mp hu ▸ hv

/-- A number behind one that is not zero. -/
theorem next (h : Written false t vs) (hvs : vs ≠ []) (hlast : vs.getLast? ≠ some 0)
    (hx : groupValue x = some v) (hv : v ≠ 0) :
    Written false (t ++ colon :: x) (vs ++ [v]) := by
  obtain ⟨fs, n, rfl, hside, hne, hopen⟩ := h.exists_open
  obtain rfl : n = 0 := by
    by_contra hn
    exact hlast (hopen.mpr (Nat.pos_of_ne_zero hn))
  rw [List.replicate_zero, List.append_nil] at hvs ⊢
  refine closed (.inr ?_) ?_
  · exact (hside.resolve_left fun hnil => hvs hnil.2).snoc hx
  · intro u hu
    rcases List.mem_append.mp hu with hfs | hlast
    · exact hne u hfs
    · exact List.mem_singleton.mp hlast ▸ hv

theorem ne_nil (h : Written true t vs) : vs ≠ [] := by
  cases h with
  | behind _ hn _ =>
      intro hnil
      have hlen := congrArg List.length hnil
      rw [List.length_append, List.length_append, List.length_replicate, List.length_nil] at hlen
      omega

theorem append (h : Written true t vs) (hx : groupValue x = some v) :
    Written true (t ++ colon :: x) (vs ++ [v]) := by
  cases h with
  | behind hfront hn hback =>
      rw [List.append_assoc, List.cons_append, List.cons_append, List.append_assoc]
      exact behind hfront hn (hback.snoc hx)

/-! What has been written of eight numbers. -/

theorem denotes (h : Written true t vs) (hlen : vs.length = 8) : Denotes t vs := by
  cases h with
  | behind hfront hn hback =>
      rw [List.length_append, List.length_append, List.length_replicate] at hlen
      exact .zeros hfront (.inr hback) hn hlen

theorem denotes_full (h : Written false t vs) (hlen : vs.length = 8)
    (hlast : vs.getLast? ≠ some 0) : Denotes t vs := by
  obtain ⟨fs, n, rfl, hside, -, hopen⟩ := h.exists_open
  obtain rfl : n = 0 := by
    by_contra hn
    exact hlast (hopen.mpr (Nat.pos_of_ne_zero hn))
  rw [List.replicate_zero, List.append_nil] at hlen ⊢
  rcases hside with ⟨-, rfl⟩ | hgroups
  · cases hlen
  · exact .full hgroups hlen

/-- Zeros up to the end are closed there. -/
theorem denotes_close (h : Written false t vs) (hlen : vs.length = 8)
    (hlast : vs.getLast? = some 0) : Denotes (t ++ [colon, colon]) vs := by
  obtain ⟨fs, n, rfl, hside, -, hopen⟩ := h.exists_open
  rw [List.length_append, List.length_replicate] at hlen
  have h : Denotes (t ++ colon :: colon :: []) (fs ++ List.replicate n 0 ++ []) :=
    .zeros hside (.inl ⟨rfl, rfl⟩) (hopen.mp hlast) hlen
  rwa [List.append_nil] at h

end Written

end Gxh.ColonHex
