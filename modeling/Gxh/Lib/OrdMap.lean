import Mathlib.Data.List.Lex
import Mathlib.Data.List.Pairwise
import Mathlib.Order.Lattice

/-!
# Ordered maps as sorted lists of entries

A `std::map` with comparator `lt` is the list of its entries in iteration order. The comparator
may take different keys for equivalent: it compares the ranks `rank k` of the keys in a linear
order (`Ranks`), and two keys are equivalent when their ranks are equal.
-/

namespace Gxh.OrdMap

variable {κ ι ν : Type} [LinearOrder ι]

/-- The comparator compares ranks. -/
def Ranks (lt : κ → κ → Bool) (rank : κ → ι) : Prop := ∀ a b, lt a b = true ↔ rank a < rank b

/-- Strictly increasing in iteration order. -/
def Sorted (rank : κ → ι) (m : List (κ × ν)) : Prop := m.Pairwise fun a b => rank a.1 < rank b.1

/-- `m[key] = val`: an entry that is there keeps its key. -/
def set (lt : κ → κ → Bool) (key : κ) (val : ν) : List (κ × ν) → List (κ × ν)
  | [] => [(key, val)]
  | (k, v) :: rest =>
      if lt k key then (k, v) :: set lt key val rest
      else if lt key k then (key, val) :: (k, v) :: rest
      else (k, val) :: rest

/-- `m.erase(key)`. -/
def erase (lt : κ → κ → Bool) (key : κ) : List (κ × ν) → List (κ × ν)
  | [] => []
  | (k, v) :: rest =>
      if lt k key then (k, v) :: erase lt key rest
      else if lt key k then (k, v) :: rest
      else rest

/-- `m.find(key)`. -/
def find (lt : κ → κ → Bool) (key : κ) : List (κ × ν) → Option ν
  | [] => none
  | (k, v) :: rest =>
      if lt k key then find lt key rest
      else if lt key k then none
      else some v

/-- `m.insert({key, val})`: an entry that is there stays. -/
def insert (lt : κ → κ → Bool) (key : κ) (val : ν) (m : List (κ × ν)) : List (κ × ν) :=
  match find lt key m with
  | some _ => m
  | none => set lt key val m

/-- The value of the first of some entries whose key is equivalent. -/
def first (lt : κ → κ → Bool) (key : κ) : List (κ × ν) → Option ν
  | [] => none
  | (k, v) :: rest => if !lt k key && !lt key k then some v else first lt key rest

variable {lt : κ → κ → Bool} {rank : κ → ι} {m : List (κ × ν)} {key : κ} {val : ν}

theorem equivalent_iff (h : Ranks lt rank) (a b : κ) :
    (!lt a b && !lt b a) = true ↔ rank a = rank b := by
  rw [Bool.and_eq_true, Bool.not_eq_true', Bool.not_eq_true', ← Bool.not_eq_true,
    ← Bool.not_eq_true, h, h, not_lt, not_lt]
  exact ⟨fun hle => le_antisymm hle.2 hle.1, fun heq => ⟨heq.ge, heq.le⟩⟩

/-- `set` brings in no rank but that of the key. -/
theorem rank_of_mem_set (h : Ranks lt rank) {e : κ × ν} (he : e ∈ set lt key val m) :
    rank e.1 = rank key ∨ e ∈ m := by
  induction m with
  | nil =>
      rw [set, List.mem_singleton] at he
      exact .inl (by rw [he])
  | cons x rest ih =>
      obtain ⟨k, v⟩ := x
      simp only [set] at he
      split at he
      · rcases List.mem_cons.mp he with rfl | hrest
        · exact .inr List.mem_cons_self
        · exact (ih hrest).imp_right (List.mem_cons_of_mem _)
      · rename_i hlt
        split at he
        · rcases List.mem_cons.mp he with rfl | hrest
          · exact .inl rfl
          · exact .inr hrest
        · rename_i hgt
          rcases List.mem_cons.mp he with rfl | hrest
          · rw [h] at hlt hgt
            exact .inl (le_antisymm (not_lt.mp hgt) (not_lt.mp hlt))
          · exact .inr (List.mem_cons_of_mem _ hrest)

theorem Sorted.set (h : Ranks lt rank) (hs : Sorted rank m) :
    Sorted rank (OrdMap.set lt key val m) := by
  induction m with
  | nil => exact List.pairwise_singleton _ _
  | cons x rest ih =>
      obtain ⟨k, v⟩ := x
      have hrest := List.pairwise_cons.mp hs
      simp only [OrdMap.set]
      split
      · rename_i hlt
        refine List.pairwise_cons.mpr ⟨?_, ih hrest.2⟩
        intro e he
        rcases rank_of_mem_set h he with heq | hmem
        · rw [heq]
          exact (h k key).mp hlt
        · exact hrest.1 e hmem
      · split
        · rename_i hgt
          refine List.pairwise_cons.mpr ⟨?_, hs⟩
          intro e he
          have hk : rank key < rank k := (h key k).mp hgt
          rcases List.mem_cons.mp he with rfl | hmem
          · exact hk
          · exact hk.trans (hrest.1 e hmem)
        · exact List.pairwise_cons.mpr ⟨hrest.1, hrest.2⟩

/-- What is found in a sorted map is the entry of an equivalent key. -/
theorem find_eq_some_iff (h : Ranks lt rank) (hs : Sorted rank m) :
    find lt key m = some val ↔ ∃ e ∈ m, rank e.1 = rank key ∧ e.2 = val := by
  induction m with
  | nil => simp [find]
  | cons x rest ih =>
      obtain ⟨k, v⟩ := x
      have hrest := List.pairwise_cons.mp hs
      simp only [find]
      split
      · rename_i hlt
        have hne : rank k ≠ rank key := ne_of_lt ((h k key).mp hlt)
        rw [ih hrest.2]
        simp [hne]
      · rename_i hle
        have hle' : rank key ≤ rank k := not_lt.mp (mt (h k key).mpr hle)
        split
        · rename_i hgt
          -- every later key is larger still
          have hk : rank key < rank k := (h key k).mp hgt
          constructor
          · intro hf
            cases hf
          · rintro ⟨e, he, heq, -⟩
            rcases List.mem_cons.mp he with rfl | hmem
            · exact absurd heq (ne_of_gt hk)
            · exact absurd heq (ne_of_gt (hk.trans (hrest.1 e hmem)))
        · rename_i hge
          have heq : rank k = rank key := le_antisymm (not_lt.mp (mt (h key k).mpr hge)) hle'
          constructor
          · intro hv
            exact ⟨(k, v), List.mem_cons_self, heq, Option.some.inj hv⟩
          · rintro ⟨e, he, hek, rfl⟩
            rcases List.mem_cons.mp he with rfl | hmem
            · rfl
            · exact absurd (hrest.1 e hmem) (by rw [hek, heq]; exact lt_irrefl _)

theorem find_set (h : Ranks lt rank) (k : κ) :
    find lt k (set lt key val m) = if rank key = rank k then some val else find lt k m := by
  induction m with
  | nil =>
      simp only [set, find]
      by_cases heq : rank key = rank k
      · have h1 : ¬ lt key k = true := by rw [h, heq]; exact lt_irrefl _
        have h2 : ¬ lt k key = true := by rw [h, heq]; exact lt_irrefl _
        rw [if_neg h1, if_neg h2, if_pos heq]
      · rw [if_neg heq]
        split
        · rfl
        · rename_i hlt
          rw [h] at hlt
          have hgt : lt k key = true := (h k key).mpr (lt_of_le_of_ne (not_lt.mp hlt) (Ne.symm heq))
          rw [if_pos hgt]
  | cons x rest ih =>
      obtain ⟨k', v⟩ := x
      have hle : ∀ a b, ¬ lt a b = true → rank b ≤ rank a :=
        fun a b hab => not_lt.mp (mt (h a b).mpr hab)
      simp only [set]
      split
      · rename_i hlt
        have hlt' : rank k' < rank key := (h k' key).mp hlt
        simp only [find]
        split
        · exact ih
        · rename_i hk
          have hne : rank key ≠ rank k := ne_of_gt ((hle k' k hk).trans_lt hlt')
          rw [if_neg hne]
      · rename_i hlt
        split
        · rename_i hgt
          have hgt' : rank key < rank k' := (h key k').mp hgt
          show (if lt key k then _ else _) = _
          split
          · rename_i hk
            have hk' : rank key < rank k := (h key k).mp hk
            rw [if_neg (ne_of_lt hk')]
          · rename_i hk
            split
            · rename_i hk2
              have hk2' : rank k < rank key := (h k key).mp hk2
              rw [if_neg (ne_of_gt hk2')]
              have h1 : ¬ lt k' k = true := by
                rw [h]
                exact not_lt.mpr (hk2'.trans hgt').le
              have h2 : lt k k' = true := (h k k').mpr (hk2'.trans hgt')
              rw [find, if_neg h1, if_pos h2]
            · rename_i hk2
              rw [if_pos (le_antisymm (hle k key hk2) (hle key k hk))]
        · rename_i hgt
          have heq : rank k' = rank key := le_antisymm (hle key k' hgt) (hle k' key hlt)
          simp only [find]
          split
          · rename_i hk
            rw [if_neg (ne_of_lt (heq ▸ (h k' k).mp hk))]
          · rename_i hk
            split
            · rename_i hk2
              rw [if_neg (ne_of_gt (heq ▸ (h k k').mp hk2))]
            · rename_i hk2
              rw [if_pos (heq ▸ le_antisymm (hle k k' hk2) (hle k' k hk))]

/-- What an entry of the new map is made of. -/
theorem mem_set_parts {e : κ × ν} (he : e ∈ set lt key val m) :
    e ∈ m ∨ e.2 = val ∧ (e.1 = key ∨ ∃ v, (e.1, v) ∈ m) := by
  induction m with
  | nil =>
      rw [set, List.mem_singleton] at he
      exact .inr ⟨by rw [he], .inl (by rw [he])⟩
  | cons x rest ih =>
      obtain ⟨k, v⟩ := x
      simp only [set] at he
      split at he
      · rcases List.mem_cons.mp he with rfl | hrest
        · exact .inl List.mem_cons_self
        · rcases ih hrest with hmem | ⟨hval, hkey | ⟨w, hw⟩⟩
          · exact .inl (List.mem_cons_of_mem _ hmem)
          · exact .inr ⟨hval, .inl hkey⟩
          · exact .inr ⟨hval, .inr ⟨w, List.mem_cons_of_mem _ hw⟩⟩
      · split at he
        · rcases List.mem_cons.mp he with rfl | hrest
          · exact .inr ⟨rfl, .inl rfl⟩
          · exact .inl hrest
        · rcases List.mem_cons.mp he with rfl | hrest
          · exact .inr ⟨rfl, .inr ⟨v, List.mem_cons_self⟩⟩
          · exact .inl (List.mem_cons_of_mem _ hrest)

/-- A key that no entry has gets an entry of its own. -/
theorem mem_set_of_new (h : Ranks lt rank) (hnew : ∀ x ∈ m, rank x.1 ≠ rank key) {e : κ × ν} :
    e ∈ set lt key val m ↔ e ∈ m ∨ e = (key, val) := by
  induction m with
  | nil => simp [set]
  | cons x rest ih =>
      obtain ⟨k, v⟩ := x
      have hrest := ih fun x hx => hnew x (List.mem_cons_of_mem _ hx)
      simp only [set]
      split
      · rw [List.mem_cons, List.mem_cons, hrest, or_assoc]
      · rename_i hle
        split
        · rw [List.mem_cons, or_comm]
        · rename_i hge
          rw [h, not_lt] at hle hge
          exact absurd (le_antisymm hge hle) (hnew (k, v) List.mem_cons_self)

theorem find_eq_none_iff (h : Ranks lt rank) (hs : Sorted rank m) :
    find lt key m = none ↔ ∀ x ∈ m, rank x.1 ≠ rank key := by
  constructor
  · intro hnone x hx heq
    have hfound := (find_eq_some_iff h hs).mpr ⟨x, hx, heq, rfl⟩
    rw [hnone] at hfound
    cases hfound
  · intro hnew
    cases hfind : find lt key m with
    | none => rfl
    | some v =>
        obtain ⟨x, hx, heq, -⟩ := (find_eq_some_iff h hs).mp hfind
        exact absurd heq (hnew x hx)

theorem mem_insert (h : Ranks lt rank) (hs : Sorted rank m) {e : κ × ν} :
    e ∈ insert lt key val m ↔
      e ∈ m ∨ e = (key, val) ∧ ∀ x ∈ m, rank x.1 ≠ rank key := by
  unfold insert
  split
  · rename_i v hfound
    obtain ⟨x, hx, heq, -⟩ := (find_eq_some_iff h hs).mp hfound
    constructor
    · exact .inl
    · rintro (hmem | ⟨-, hnew⟩)
      · exact hmem
      · exact absurd heq (hnew x hx)
  · rename_i hnone
    have hnew := (find_eq_none_iff h hs).mp hnone
    rw [mem_set_of_new h hnew]
    exact or_congr_right (and_iff_left hnew).symm

theorem first_congr (h : Ranks lt rank) {k : κ} (heq : rank key = rank k)
    (entries : List (κ × ν)) : first lt key entries = first lt k entries := by
  induction entries with
  | nil => rfl
  | cons e rest ih =>
      obtain ⟨k', v⟩ := e
      have hsame : (!lt k' key && !lt key k') = (!lt k' k && !lt k k') := Bool.eq_iff_iff.mpr (by
        rw [equivalent_iff h, equivalent_iff h, heq])
      rw [first, first, hsame, ih]

theorem find_congr (h : Ranks lt rank) {k : κ} (heq : rank key = rank k) :
    find lt key m = find lt k m := by
  induction m with
  | nil => rfl
  | cons x rest ih =>
      obtain ⟨k', v⟩ := x
      have hbelow : lt k' key = lt k' k := Bool.eq_iff_iff.mpr (by rw [h, h, heq])
      have habove : lt key k' = lt k k' := Bool.eq_iff_iff.mpr (by rw [h, h, heq])
      simp only [find, hbelow, habove, ih]

theorem Sorted.insert (h : Ranks lt rank) (hs : Sorted rank m) :
    Sorted rank (OrdMap.insert lt key val m) := by
  unfold OrdMap.insert
  split
  · exact hs
  · exact hs.set h

theorem find_insert (h : Ranks lt rank) (k : κ) :
    find lt k (insert lt key val m) =
      (find lt k m).or (if rank key = rank k then some val else none) := by
  unfold insert
  split
  · rename_i w hfound
    by_cases heq : rank key = rank k
    · rw [← find_congr h heq, hfound]
      rfl
    · rw [if_neg heq, Option.or_none]
  · rename_i hnone
    rw [find_set h]
    by_cases heq : rank key = rank k
    · rw [if_pos heq, if_pos heq, ← find_congr h heq, hnone]
      rfl
    · rw [if_neg heq, if_neg heq, Option.or_none]

theorem erase_sublist : (erase lt key m).Sublist m := by
  induction m with
  | nil => exact List.Sublist.slnil
  | cons x rest ih =>
      simp only [erase]
      split
      · exact ih.cons_cons x
      · split
        · exact List.Sublist.refl _
        · exact List.sublist_cons_self x rest

theorem Sorted.erase (hs : Sorted rank m) : Sorted rank (OrdMap.erase lt key m) :=
  hs.sublist erase_sublist

theorem mem_erase (h : Ranks lt rank) (hs : Sorted rank m) {e : κ × ν} :
    e ∈ erase lt key m ↔ e ∈ m ∧ rank e.1 ≠ rank key := by
  induction m with
  | nil => simp [erase]
  | cons x rest ih =>
      obtain ⟨k, v⟩ := x
      have hrest := List.pairwise_cons.mp hs
      -- no later entry is in the place of this one
      have hlater : rank key ≤ rank k → ∀ e ∈ rest, rank e.1 ≠ rank key :=
        fun hle e he => ne_of_gt (hle.trans_lt (hrest.1 e he))
      simp only [erase]
      split
      · rename_i hlt
        have hne : rank k ≠ rank key := ne_of_lt ((h k key).mp hlt)
        rw [List.mem_cons, List.mem_cons, ih hrest.2]
        constructor
        · rintro (rfl | ⟨hmem, he⟩)
          · exact ⟨.inl rfl, hne⟩
          · exact ⟨.inr hmem, he⟩
        · rintro ⟨rfl | hmem, he⟩
          · exact .inl rfl
          · exact .inr ⟨hmem, he⟩
      · rename_i hle
        have hle' : rank key ≤ rank k := not_lt.mp (mt (h k key).mpr hle)
        split
        · rename_i hgt
          have hne : rank k ≠ rank key := ne_of_gt ((h key k).mp hgt)
          constructor
          · intro he
            refine ⟨he, ?_⟩
            rcases List.mem_cons.mp he with rfl | hmem
            · exact hne
            · exact hlater hle' e hmem
          · exact fun he => he.1
        · rename_i hge
          have heq : rank k = rank key := le_antisymm (not_lt.mp (mt (h key k).mpr hge)) hle'
          constructor
          · exact fun he => ⟨List.mem_cons_of_mem _ he, hlater hle' e he⟩
          · rintro ⟨he, hne⟩
            rcases List.mem_cons.mp he with rfl | hmem
            · exact absurd heq hne
            · exact hmem

theorem find_erase (h : Ranks lt rank) (hs : Sorted rank m) (k : κ) :
    find lt k (erase lt key m) = if rank key = rank k then none else find lt k m := by
  have hfound : ∀ v, find lt k (erase lt key m) = some v ↔
      rank key ≠ rank k ∧ find lt k m = some v := by
    intro v
    rw [find_eq_some_iff h (hs.erase), find_eq_some_iff h hs]
    constructor
    · rintro ⟨e, he, hek, hv⟩
      obtain ⟨hmem, hne⟩ := (mem_erase h hs).mp he
      exact ⟨fun heq => hne (hek.trans heq.symm), e, hmem, hek, hv⟩
    · rintro ⟨hne, e, hmem, hek, hv⟩
      exact ⟨e, (mem_erase h hs).mpr ⟨hmem, fun heq => hne (heq.symm.trans hek)⟩, hek, hv⟩
  refine Option.ext fun v => ?_
  rw [hfound v]
  by_cases heq : rank key = rank k
  · simp [heq]
  · simp [heq]

/-! ## Maps with their order -/

/-- A `std::map`. -/
structure Map (rank : κ → ι) (ν : Type) where
  entries : List (κ × ν)
  sorted : Sorted rank entries

namespace Map

variable (h : Ranks lt rank)

def empty : Map rank ν := ⟨[], List.Pairwise.nil⟩

def set (m : Map rank ν) (key : κ) (val : ν) : Map rank ν :=
  ⟨OrdMap.set lt key val m.entries, m.sorted.set h⟩

def insert (m : Map rank ν) (key : κ) (val : ν) : Map rank ν :=
  ⟨OrdMap.insert lt key val m.entries, m.sorted.insert h⟩

def erase (lt : κ → κ → Bool) (m : Map rank ν) (key : κ) : Map rank ν :=
  ⟨OrdMap.erase lt key m.entries, m.sorted.erase⟩

def find (lt : κ → κ → Bool) (m : Map rank ν) (key : κ) : Option ν := OrdMap.find lt key m.entries

/-- `insert` of one entry after the other. -/
def insertAll (m : Map rank ν) (entries : List (κ × ν)) : Map rank ν :=
  entries.foldl (fun m e => insert h m e.1 e.2) m

theorem insertAll_append (m : Map rank ν) (xs ys : List (κ × ν)) :
    insertAll h m (xs ++ ys) = insertAll h (insertAll h m xs) ys := List.foldl_append

theorem find_set (m : Map rank ν) (key : κ) (val : ν) (k : κ) :
    find lt (set h m key val) k = if rank key = rank k then some val else find lt m k :=
  OrdMap.find_set h k

include h in
theorem find_erase (m : Map rank ν) (key k : κ) :
    find lt (erase lt m key) k = if rank key = rank k then none else find lt m k :=
  OrdMap.find_erase h m.sorted k

/-- What was there stays, and of what comes in the first of a key counts. -/
theorem find_insertAll (m : Map rank ν) (entries : List (κ × ν)) (k : κ) :
    find lt (insertAll h m entries) k = (find lt m k).or (first lt k entries) := by
  induction entries generalizing m with
  | nil => exact (Option.or_none).symm
  | cons e rest ih =>
      obtain ⟨key, val⟩ := e
      have hinsert : find lt (insert h m key val) k =
          (find lt m k).or (if rank key = rank k then some val else none) := OrdMap.find_insert h k
      show find lt (insertAll h (insert h m key val) rest) k = _
      rw [ih, hinsert, Option.or_assoc, first]
      by_cases heq : rank key = rank k
      · rw [if_pos heq, if_pos ((equivalent_iff h key k).mpr heq)]
        rfl
      · rw [if_neg heq, if_neg (mt (equivalent_iff h key k).mp heq), Option.none_or]

/-- The entries: those that were there, and of what comes in the first of a new key. -/
theorem mem_insertAll (m : Map rank ν) (entries : List (κ × ν)) {e : κ × ν} :
    e ∈ (insertAll h m entries).entries ↔
      e ∈ m.entries ∨ (∀ x ∈ m.entries, rank x.1 ≠ rank e.1) ∧
        entries.find? (fun x => !lt x.1 e.1 && !lt e.1 x.1) = some e := by
  induction entries generalizing m with
  | nil => simp [insertAll]
  | cons x rest ih =>
      have hmem : ∀ y : κ × ν, y ∈ (insert h m x.1 x.2).entries ↔
          y ∈ m.entries ∨ y = x ∧ ∀ z ∈ m.entries, rank z.1 ≠ rank x.1 :=
        fun y => OrdMap.mem_insert h m.sorted
      show e ∈ (insertAll h (insert h m x.1 x.2) rest).entries ↔ _
      rw [ih, hmem, List.find?_cons, or_assoc]
      refine or_congr_right ?_
      by_cases heq : rank x.1 = rank e.1
      · -- the entry that comes in has the key, and no later one counts
        have hlater : ¬∀ y ∈ (insert h m x.1 x.2).entries, rank y.1 ≠ rank e.1 := by
          intro hall
          by_cases hnew : ∀ z ∈ m.entries, rank z.1 ≠ rank x.1
          · exact hall x ((hmem x).mpr (.inr ⟨rfl, hnew⟩)) heq
          · refine hnew fun z hz hzx => ?_
            exact hall z ((hmem z).mpr (.inl hz)) (hzx.trans heq)
        rw [(equivalent_iff h x.1 e.1).mpr heq, or_iff_left fun hand => hlater hand.1, heq,
          and_comm]
        refine and_congr_right fun _ => ?_
        rw [Option.some_inj, eq_comm]
      · rw [Bool.eq_false_iff.mpr (mt (equivalent_iff h x.1 e.1).mp heq)]
        have hother : (∀ y ∈ (insert h m x.1 x.2).entries, rank y.1 ≠ rank e.1) ↔
            ∀ y ∈ m.entries, rank y.1 ≠ rank e.1 := by
          constructor
          · exact fun hall y hy => hall y ((hmem y).mpr (.inl hy))
          · intro hall y hy
            rcases (hmem y).mp hy with hold | ⟨rfl, -⟩
            · exact hall y hold
            · exact heq
        rw [hother]
        refine or_iff_right ?_
        rintro ⟨rfl, -⟩
        exact heq rfl

/-- A map is its entries in order. -/
theorem ext_of_mem {m m' : Map rank ν} (hmem : ∀ e, e ∈ m.entries ↔ e ∈ m'.entries) : m = m' := by
  have hnodup : ∀ m : Map rank ν, m.entries.Nodup := by
    intro m
    refine m.sorted.imp ?_
    rintro a b hlt rfl
    exact lt_irrefl _ hlt
  have hperm : m.entries.Perm m'.entries :=
    (List.perm_ext_iff_of_nodup (hnodup m) (hnodup m')).mpr hmem
  have hsame : m.entries = m'.entries :=
    hperm.eq_of_pairwise (fun _ _ _ _ hlt hgt => absurd hlt (lt_asymm hgt)) m.sorted m'.sorted
  cases m
  cases m'
  cases hsame
  rfl

/-- Two sequences of entries make the same map when they agree on the first entry of each key. -/
theorem insertAll_empty_inj (xs ys : List (κ × ν)) :
    insertAll h (empty : Map rank ν) xs = insertAll h empty ys ↔
      ∀ k, xs.find? (fun x => !lt x.1 k && !lt k x.1) =
        ys.find? fun x => !lt x.1 k && !lt k x.1 := by
  have hmem : ∀ (zs : List (κ × ν)) (e : κ × ν),
      e ∈ (insertAll h (empty : Map rank ν) zs).entries ↔
        zs.find? (fun x : κ × ν => !lt x.1 e.1 && !lt e.1 x.1) = some e := by
    intro zs e
    rw [mem_insertAll]
    refine (or_iff_right (List.not_mem_nil)).trans (and_iff_right ?_)
    exact fun x hx => absurd hx List.not_mem_nil
  constructor
  · intro heq k
    refine Option.ext fun e => ?_
    by_cases hk : rank e.1 = rank k
    · -- the search is for the key of `e`
      have hsame : ∀ x : κ × ν, (!lt x.1 k && !lt k x.1) = (!lt x.1 e.1 && !lt e.1 x.1) := by
        intro x
        rw [Bool.eq_iff_iff, equivalent_iff h, equivalent_iff h, hk]
      simp only [hsame]
      rw [← hmem, ← hmem, heq]
    · have hkey : ∀ zs : List (κ × ν),
          zs.find? (fun x => !lt x.1 k && !lt k x.1) ≠ some e := by
        intro zs hfind
        have hfound := List.find?_some hfind
        exact hk ((equivalent_iff h e.1 k).mp hfound)
      exact iff_of_false (hkey xs) (hkey ys)
  · intro hfirst
    refine ext_of_mem fun e => ?_
    rw [hmem, hmem, hfirst]

end Map

end Gxh.OrdMap
