import Mathlib.Data.List.Basic
import Mathlib.Data.List.Nodup

/-!
# Registries

A sequence of writes, each of which puts a value under a key or deletes the key. A write *stands*
as long as no later one is about its key. `Tracks ws l` says that the list `l` holds the standing
writes of `ws` in the order of their times, as it does when a put drops the old entry of its key
and adds the new one at the end.

* `Tracks.put`, `Tracks.del` — both kinds of writes keep it;
* `Tracks.find_of_oldest`, `Tracks.find_of_none` — a search from the front finds the oldest
  standing write of the keys searched for.
-/

namespace Gxh.Registry

variable {K V : Type}

inductive Write (K V : Type)
  | put (k : K) (v : V)
  | del (k : K)
  deriving DecidableEq, Repr

def Write.key : Write K V → K
  | .put k _ => k
  | .del k => k

/-- Write number `i` has put `v` under `k`, and no later one is about `k`. -/
def Standing (ws : List (Write K V)) (i : Nat) (k : K) (v : V) : Prop :=
  ws[i]? = some (.put k v) ∧ ∀ j w, i < j → ws[j]? = some w → w.key ≠ k

variable {ws : List (Write K V)} {w : Write K V} {i j : Nat} {k : K} {v v' : V}

theorem not_standing_nil : ¬Standing ([] : List (Write K V)) i k v := fun h => by
  have hnone := h.1
  rw [List.getElem?_nil] at hnone
  cases hnone

theorem Standing.lt (h : Standing ws i k v) : i < ws.length :=
  (List.getElem?_eq_some_iff.mp h.1).1

/-- A key has one standing write at most. -/
theorem Standing.unique (h : Standing ws i k v) (h' : Standing ws j k v') : i = j ∧ v = v' := by
  -- of two different ones the later would be about the same key
  rcases Nat.lt_trichotomy i j with hlt | rfl | hgt
  · exact absurd rfl (h.2 j _ hlt h'.1)
  · have hsame := h.1.symm.trans h'.1
    cases hsame
    exact ⟨rfl, rfl⟩
  · exact absurd rfl (h'.2 i _ hgt h.1)

/-- One more write stands itself, if it is a put, and leaves those of the other keys. -/
theorem standing_concat : Standing (ws ++ [w]) i k v ↔
    i = ws.length ∧ w = .put k v ∨ Standing ws i k v ∧ w.key ≠ k := by
  have hlast : (ws ++ [w])[ws.length]? = some w := List.getElem?_concat_length
  constructor
  · rintro ⟨hput, hlater⟩
    have hlt := (List.getElem?_eq_some_iff.mp hput).1
    rw [List.length_append, List.length_singleton] at hlt
    by_cases hi : i = ws.length
    · rw [hi, hlast] at hput
      exact .inl ⟨hi, Option.some.inj hput⟩
    · right
      rw [List.getElem?_append_left (by omega)] at hput
      refine ⟨⟨hput, ?_⟩, hlater _ w (by omega) hlast⟩
      intro j x hj hx
      have hjlt := (List.getElem?_eq_some_iff.mp hx).1
      exact hlater j x hj (by rw [List.getElem?_append_left hjlt, hx])
  · rintro (⟨rfl, rfl⟩ | ⟨hstand, hkey⟩)
    · refine ⟨hlast, ?_⟩
      intro j x hj hx
      have hjlt := (List.getElem?_eq_some_iff.mp hx).1
      rw [List.length_append, List.length_singleton] at hjlt
      omega
    · have hlt := hstand.lt
      refine ⟨by rw [List.getElem?_append_left hlt, hstand.1], ?_⟩
      intro j x hj hx
      have hjlt := (List.getElem?_eq_some_iff.mp hx).1
      rw [List.length_append, List.length_singleton] at hjlt
      by_cases hend : j = ws.length
      · rw [hend, hlast] at hx
        rw [← Option.some.inj hx]
        exact hkey
      · rw [List.getElem?_append_left (by omega)] at hx
        exact hstand.2 j x hj hx

/-! ## Maps -/

/-- The map holds what stands. -/
def Holds (ws : List (Write K V)) (m : K → Option V) : Prop :=
  ∀ k v, m k = some v ↔ ∃ i, Standing ws i k v

theorem holds_nil : Holds ([] : List (Write K V)) fun _ => none := by
  intro k v
  constructor
  · nofun
  · rintro ⟨i, hi⟩
    exact absurd hi not_standing_nil

theorem Holds.eq_none {m : K → Option V} (h : Holds ws m) (hk : ∀ i v, ¬Standing ws i k v) :
    m k = none := by
  cases hm : m k with
  | none => rfl
  | some v =>
      obtain ⟨i, hi⟩ := (h k v).mp hm
      exact absurd hi (hk i v)

/-- Other keys keep their values when a write is made. -/
theorem Holds.concat {m m' : K → Option V} (h : Holds ws m)
    (hkey : ∀ v, m' w.key = some v ↔ w = .put w.key v)
    (hother : ∀ k, k ≠ w.key → m' k = m k) : Holds (ws ++ [w]) m' := by
  intro k v
  simp only [standing_concat]
  by_cases hk : k = w.key
  · rw [hk, hkey]
    constructor
    · exact fun hput => ⟨ws.length, .inl ⟨rfl, hput⟩⟩
    · rintro ⟨i, ⟨-, hput⟩ | ⟨-, hne⟩⟩
      · exact hput
      · exact absurd rfl hne
  · rw [hother k hk, h]
    constructor
    · rintro ⟨i, hi⟩
      exact ⟨i, .inr ⟨hi, Ne.symm hk⟩⟩
    · rintro ⟨i, ⟨-, rfl⟩ | ⟨hi, -⟩⟩
      · exact absurd rfl hk
      · exact ⟨i, hi⟩

/-! ## Lists in the order of time -/

/-- The list holds the standing writes, oldest first. -/
def Tracks (ws : List (Write K V)) (l : List (K × V)) : Prop :=
  ∃ timed : List (Nat × K × V), timed.map Prod.snd = l ∧ (timed.map Prod.fst).Pairwise (· < ·) ∧
    ∀ i k v, (i, k, v) ∈ timed ↔ Standing ws i k v

theorem tracks_nil : Tracks ([] : List (Write K V)) [] :=
  ⟨[], rfl, List.Pairwise.nil, fun _ _ _ => iff_of_false nofun not_standing_nil⟩

/-- No key is in the list twice. -/
theorem Tracks.nodup {l : List (K × V)} (h : Tracks ws l) : (l.map Prod.fst).Nodup := by
  obtain ⟨timed, rfl, hsorted, hmem⟩ := h
  rw [List.map_map]
  have hpair : timed.Pairwise fun a b => a.1 < b.1 := List.pairwise_map.mp hsorted
  -- two entries of one key would be one standing write at two times
  refine List.pairwise_map.mpr (hpair.imp_of_mem ?_)
  rintro ⟨i, k, v⟩ ⟨j, k', v'⟩ ha hb hlt hkey
  have hsame : k = k' := hkey
  subst hsame
  have heq := (((hmem i k v).mp ha).unique ((hmem j k v').mp hb)).1
  have hij : i < j := hlt
  omega

section Decidable

variable [DecidableEq K]

/-- Dropping the entry of a key, which is the only one. -/
theorem eraseP_eq_filter {l : List (K × V)} (h : (l.map Prod.fst).Nodup) (k : K) :
    l.eraseP (fun e => e.1 = k) = l.filter fun e => e.1 ≠ k := by
  induction l with
  | nil => rfl
  | cons e rest ih =>
      rw [List.map_cons, List.nodup_cons] at h
      by_cases hk : e.1 = k
      · -- behind it the key does not come again
        have hrest : rest.filter (fun e => e.1 ≠ k) = rest := by
          rw [List.filter_eq_self]
          intro x hx
          have hne : x.1 ≠ k := by
            rintro hxk
            exact h.1 (List.mem_map.mpr ⟨x, hx, hxk.trans hk.symm⟩)
          simpa using hne
        rw [List.eraseP_cons_of_pos (by simpa using hk),
          List.filter_cons_of_neg (by simpa using hk), hrest]
      · rw [List.eraseP_cons_of_neg (by simpa using hk),
          List.filter_cons_of_pos (by simpa using hk), ih h.2]

theorem Tracks.del {l : List (K × V)} (h : Tracks ws l) (k : K) :
    Tracks (ws ++ [.del k]) (l.eraseP fun e => e.1 = k) := by
  rw [eraseP_eq_filter h.nodup]
  obtain ⟨timed, rfl, hsorted, hmem⟩ := h
  refine ⟨timed.filter fun e => e.2.1 ≠ k, ?_, ?_, ?_⟩
  · rw [List.filter_map]
    rfl
  · exact hsorted.sublist (List.filter_sublist.map _)
  · intro i k' v
    rw [List.mem_filter, hmem, standing_concat]
    constructor
    · rintro ⟨hstand, hne⟩
      exact .inr ⟨hstand, Ne.symm (of_decide_eq_true hne)⟩
    · rintro (⟨-, hput⟩ | ⟨hstand, hne⟩)
      · cases hput
      · exact ⟨hstand, decide_eq_true (Ne.symm hne)⟩

theorem Tracks.put {l : List (K × V)} (h : Tracks ws l) (k : K) (v : V) :
    Tracks (ws ++ [.put k v]) (l.eraseP (fun e => e.1 = k) ++ [(k, v)]) := by
  rw [eraseP_eq_filter h.nodup]
  obtain ⟨timed, rfl, hsorted, hmem⟩ := h
  refine ⟨timed.filter (fun e => e.2.1 ≠ k) ++ [(ws.length, k, v)], ?_, ?_, ?_⟩
  · rw [List.map_append, List.filter_map]
    rfl
  · rw [List.map_append, List.pairwise_append]
    refine ⟨hsorted.sublist (List.filter_sublist.map _), List.pairwise_singleton _ _, ?_⟩
    intro i hi j hj
    obtain ⟨⟨i, k', v'⟩, he, rfl⟩ := List.mem_map.mp hi
    -- the new write is the latest
    have hlt := ((hmem i k' v').mp (List.mem_of_mem_filter he)).lt
    have hj' : j = ws.length := List.mem_singleton.mp hj
    rw [hj']
    exact hlt
  · intro i k' v'
    rw [List.mem_append, List.mem_filter, hmem, List.mem_singleton, standing_concat]
    constructor
    · rintro (⟨hstand, hne⟩ | heq)
      · exact .inr ⟨hstand, Ne.symm (of_decide_eq_true hne)⟩
      · cases heq
        exact .inl ⟨rfl, rfl⟩
    · rintro (⟨rfl, hput⟩ | ⟨hstand, hne⟩)
      · cases hput
        exact .inr rfl
      · exact .inl ⟨hstand, decide_eq_true (Ne.symm hne)⟩

end Decidable

/-- A search from the front finds the oldest standing write of the keys searched for. -/
theorem Tracks.find_of_oldest {l : List (K × V)} (h : Tracks ws l) {p : K → Bool}
    (hstand : Standing ws i k v) (hk : p k = true)
    (holdest : ∀ j k' v', Standing ws j k' v' → p k' = true → i ≤ j) :
    l.find? (fun e => p e.1) = some (k, v) := by
  obtain ⟨timed, rfl, hsorted, hmem⟩ := h
  have hpair : timed.Pairwise fun a b => a.1 < b.1 := List.pairwise_map.mp hsorted
  have hin : (i, k, v) ∈ timed := (hmem i k v).mpr hstand
  obtain ⟨before, after, rfl⟩ := List.append_of_mem hin
  -- what is in front is older, so that none of its keys is searched for
  have hbefore : before.find? (fun e => p e.2.1) = none := by
    rw [List.find?_eq_none]
    rintro ⟨j, k', v'⟩ hj hp
    have hlt : j < i := (List.pairwise_append.mp hpair).2.2 _ hj _ List.mem_cons_self
    have hle := holdest j k' v' ((hmem j k' v').mp (List.mem_append_left _ hj)) hp
    omega
  rw [List.find?_map]
  show Option.map Prod.snd ((before ++ (i, k, v) :: after).find? fun e => p e.2.1) = _
  rw [List.find?_append, hbefore, List.find?_cons, hk]
  rfl

theorem Tracks.find_of_none {l : List (K × V)} (h : Tracks ws l) {p : K → Bool}
    (hnone : ∀ i k v, Standing ws i k v → p k = false) : l.find? (fun e => p e.1) = none := by
  obtain ⟨timed, rfl, -, hmem⟩ := h
  rw [List.find?_eq_none]
  intro e he
  obtain ⟨⟨i, k, v⟩, hin, rfl⟩ := List.mem_map.mp he
  rw [Bool.not_eq_true]
  exact hnone i k v ((hmem i k v).mp hin)

end Gxh.Registry
