import Gxh.Http.Message

/-!
# Host strings

The part of `Address::Lookup` (`address.cc`) that takes a host string apart into the node and the
service for `getaddrinfo`. Pointers into the string are indices of it.

The second search runs whenever the first left `node` empty, and sets `service` to the first colon
before it knows whether there is another one: `lookup_splits_iff`.
-/

namespace Gxh.Address

open Http (cStr)
open HttpParser (bytes)

/-- `memchr` over the `n` bytes from index `pos` on. -/
def memchr (str : List UInt8) (pos : Nat) (c : UInt8) (n : Nat) : Option Nat :=
  (((str.drop pos).take n).idxOf? c).map (pos + ·)

/-- `*(str.c_str() + i)`, the terminator included. -/
def charAt (str : List UInt8) (i : Nat) : UInt8 := (str.drop i).headD 0

/-- The check for `[address]:service`: `node` and `service` behind it. -/
def lookupBracket (host : List UInt8) : List UInt8 × Option Nat :=
  if host.head? = some ('[' : UInt8) then
    match memchr host 1 ']' (host.length - 1) with
    | none => ([], none)
    | some endipv6 =>
        ((host.drop 1).take (endipv6 - 1),
          if charAt host (endipv6 + 1) = ':' then some (endipv6 + 2) else none)
  else ([], none)

/-- The check for `node:service`, with `node` empty before it. -/
def lookupColon (host : List UInt8) : List UInt8 × Option Nat :=
  match memchr host 0 ':' host.length with
  | none => ([], none)
  | some service =>
      match memchr host (service + 1) ':' (host.length - service - 1) with
      | none => (host.take service, some (service + 1))
      | some _ => ([], some service)

/-- The node and the service that `Lookup` hands to `getaddrinfo`. -/
def lookup (host : List UInt8) : List UInt8 × Option (List UInt8) :=
  let bracket := lookupBracket host
  let (node, service) := if bracket.1 = [] then lookupColon host else bracket
  (cStr (if node = [] then host else node), service.map fun i => cStr (host.drop i))

/-! ## The grammar -/

/-- The host is `[x]` and a text, with `x` not empty and free of `]`. -/
def Bracketed (host : List UInt8) : Prop :=
  ∃ x rest, host = ('[' : UInt8) :: (x ++ (']' : UInt8) :: rest) ∧ x ≠ [] ∧ (']' : UInt8) ∉ x

/-- The host is `h:s` with one colon and `h` not empty. -/
def OneColon (host : List UInt8) : Prop :=
  ∃ h s, host = h ++ (':' : UInt8) :: s ∧ h ≠ [] ∧ (':' : UInt8) ∉ h ∧ (':' : UInt8) ∉ s

/-- How a host string is to be split. -/
inductive Splits : List UInt8 → List UInt8 × Option (List UInt8) → Prop
  | bracketService {x s : List UInt8} : x ≠ [] → (']' : UInt8) ∉ x →
      Splits (('[' : UInt8) :: (x ++ (']' : UInt8) :: (':' : UInt8) :: s)) (x, some s)
  | bracket {x rest : List UInt8} : x ≠ [] → (']' : UInt8) ∉ x →
      rest.head? ≠ some (':' : UInt8) →
      Splits (('[' : UInt8) :: (x ++ (']' : UInt8) :: rest)) (x, none)
  | nodeService {h s : List UInt8} : ¬ Bracketed (h ++ (':' : UInt8) :: s) → h ≠ [] →
      (':' : UInt8) ∉ h → (':' : UInt8) ∉ s → Splits (h ++ (':' : UInt8) :: s) (h, some s)
  | node {host : List UInt8} : ¬ Bracketed host → ¬ OneColon host → Splits host (host, none)

/-! ## The searches -/

theorem memchr_eq_none {str : List UInt8} {pos n : Nat} {c : UInt8} :
    memchr str pos c n = none ↔ c ∉ (str.drop pos).take n := by
  rw [memchr, Option.map_eq_none_iff, List.idxOf?_eq_none_iff]

/-- The first `c` of a string that has one. -/
theorem idxOf?_stop {c : UInt8} {x : List UInt8} (hc : c ∉ x) (y : List UInt8) :
    (x ++ c :: y).idxOf? c = some x.length := by
  induction x with
  | nil => rw [List.nil_append, List.idxOf?_cons, beq_self_eq_true, if_pos rfl, List.length_nil]
  | cons a x ih =>
      obtain ⟨hne, hx⟩ := not_or.mp (mt List.mem_cons.mpr hc)
      rw [List.cons_append, List.idxOf?_cons, if_neg (by simpa using Ne.symm hne), ih hx]
      rfl

theorem memchr_stop {str x y : List UInt8} {pos n : Nat} {c : UInt8} (hc : c ∉ x)
    (h : (str.drop pos).take n = x ++ c :: y) : memchr str pos c n = some (pos + x.length) := by
  rw [memchr, h, idxOf?_stop hc]
  rfl

theorem drop_bracket {host x rest : List UInt8}
    (h : host = ('[' : UInt8) :: (x ++ (']' : UInt8) :: rest)) (k : Nat) :
    host.drop (x.length + 2 + k) = rest.drop k := by
  have hsplit : host = (('[' : UInt8) :: (x ++ [(']' : UInt8)])) ++ rest := by
    rw [h]
    simp
  have hlen : (('[' : UInt8) :: (x ++ [(']' : UInt8)])).length = x.length + 2 := by simp
  rw [hsplit, ← hlen, List.drop_append, List.drop_of_length_le (by omega), Nat.add_sub_cancel_left,
    List.nil_append]

theorem lookupBracket_eq {host x rest : List UInt8}
    (h : host = ('[' : UInt8) :: (x ++ (']' : UInt8) :: rest)) (hx : (']' : UInt8) ∉ x) :
    lookupBracket host =
      (x, if rest.head? = some (':' : UInt8) then some (x.length + 2 + 1) else none) := by
  have htail : host.drop 1 = x ++ (']' : UInt8) :: rest := by
    rw [h]
    rfl
  have hfind : memchr host 1 ']' (host.length - 1) = some (x.length + 1) := by
    rw [Nat.add_comm]
    refine memchr_stop hx (y := rest) ?_
    rw [← List.length_drop, List.take_length, htail]
  have hbehind : charAt host (x.length + 1 + 1) = ':' ↔ rest.head? = some (':' : UInt8) := by
    have hdrop : host.drop (x.length + 1 + 1) = rest := drop_bracket h 0
    rw [charAt, hdrop]
    cases rest with
    | nil => decide
    | cons c rest => exact Option.some_inj.symm
  unfold lookupBracket
  rw [if_pos (by rw [h]; rfl), hfind]
  show ((host.drop 1).take (x.length + 1 - 1),
    if charAt host (x.length + 1 + 1) = ':' then some (x.length + 1 + 2) else none) = _
  rw [htail, Nat.add_sub_cancel, List.take_left]
  simp only [hbehind]

theorem lookupBracket_fst {host : List UInt8} (h : ¬ Bracketed host) :
    (lookupBracket host).1 = [] := by
  by_cases hhead : host.head? = some ('[' : UInt8)
  · obtain ⟨l, rfl⟩ := List.head?_eq_some_iff.mp hhead
    by_cases hmem : (']' : UInt8) ∈ l
    · obtain ⟨x, rest, rfl, hx⟩ := List.eq_append_cons_of_mem hmem
      rw [lookupBracket_eq rfl hx]
      by_contra hne
      exact h ⟨x, rest, rfl, hne, hx⟩
    · have hfind : memchr (('[' : UInt8) :: l) 1 ']' ((('[' : UInt8) :: l).length - 1) = none := by
        rw [memchr_eq_none]
        exact fun hin => hmem (List.mem_of_mem_take hin)
      unfold lookupBracket
      rw [if_pos hhead, hfind]
  · unfold lookupBracket
    rw [if_neg hhead]

theorem lookupColon_none {host : List UInt8} (h : (':' : UInt8) ∉ host) :
    lookupColon host = ([], none) := by
  have hfind : memchr host 0 ':' host.length = none := by
    rw [memchr_eq_none]
    exact fun hin => h (List.mem_of_mem_take hin)
  unfold lookupColon
  rw [hfind]

/-- The first colon is found; behind it another one, or not. -/
theorem lookupColon_eq {h : List UInt8} (hh : (':' : UInt8) ∉ h) (s : List UInt8) :
    lookupColon (h ++ (':' : UInt8) :: s) =
      if (':' : UInt8) ∈ s then ([], some h.length) else (h, some (h.length + 1)) := by
  have hfirst : memchr (h ++ (':' : UInt8) :: s) 0 ':' (h ++ (':' : UInt8) :: s).length =
      some h.length := by
    rw [memchr_stop hh (y := s), Nat.zero_add]
    rw [List.drop_zero, List.take_length]
  have hbehind : ((h ++ (':' : UInt8) :: s).drop (h.length + 1)).take
      ((h ++ (':' : UInt8) :: s).length - h.length - 1) = s := by
    have hdrop : (h ++ (':' : UInt8) :: s).drop (h.length + 1) = s := by
      rw [List.drop_append, List.drop_of_length_le (by omega), Nat.add_sub_cancel_left]
      rfl
    rw [Nat.sub_sub, ← List.length_drop, List.take_length, hdrop]
  unfold lookupColon
  rw [hfirst]
  by_cases hs : (':' : UInt8) ∈ s
  · obtain ⟨x, y, hxy, hx⟩ := List.eq_append_cons_of_mem hs
    show (match memchr _ (h.length + 1) ':' _ with | none => _ | some _ => _) = _
    rw [memchr_stop hx (hbehind.trans hxy), if_pos hs]
  · show (match memchr _ (h.length + 1) ':' _ with | none => _ | some _ => _) = _
    rw [memchr_eq_none.mpr (hbehind.symm ▸ hs), if_neg hs]
    show ((h ++ (':' : UInt8) :: s).take h.length, _) = _
    rw [List.take_left]

/-! ## What is handed over -/

variable {host : List UInt8}

theorem cStr_of_sublist {x : List UInt8} (hzero : 0 ∉ host) (h : x.Sublist host) : cStr x = x :=
  Http.cStr_of_not_mem fun hin => hzero (h.subset hin)

theorem lookup_bracket {x rest : List UInt8} (hzero : 0 ∉ host)
    (h : host = ('[' : UInt8) :: (x ++ (']' : UInt8) :: rest)) (hne : x ≠ [])
    (hx : (']' : UInt8) ∉ x) :
    lookup host = (x, if rest.head? = some (':' : UInt8) then some rest.tail else none) := by
  have hbehind : (x ++ (']' : UInt8) :: rest).Sublist host := by
    rw [h]
    exact List.sublist_cons_self _ _
  have hrest : rest.tail.Sublist (x ++ (']' : UInt8) :: rest) :=
    (List.tail_sublist rest).trans
      ((List.sublist_cons_self _ _).trans (List.sublist_append_right _ _))
  have hdrop : host.drop (x.length + 2 + 1) = rest.tail := by
    rw [drop_bracket h, List.drop_one]
  have hnode : cStr x = x :=
    cStr_of_sublist hzero ((List.sublist_append_left _ _).trans hbehind)
  have hservice : cStr rest.tail = rest.tail := cStr_of_sublist hzero (hrest.trans hbehind)
  unfold lookup
  simp only [lookupBracket_eq h hx, if_neg hne, hnode]
  split
  · rw [Option.map_some, hdrop, hservice]
  · rfl

theorem lookup_of_not_bracketed (h : ¬ Bracketed host) :
    lookup host = (cStr (if (lookupColon host).1 = [] then host else (lookupColon host).1),
      (lookupColon host).2.map fun i => cStr (host.drop i)) := by
  unfold lookup
  simp only [lookupBracket_fst h, if_true]

theorem lookup_without_colon (hzero : 0 ∉ host) (hb : ¬ Bracketed host)
    (h : (':' : UInt8) ∉ host) : lookup host = (host, none) := by
  rw [lookup_of_not_bracketed hb, lookupColon_none h, if_pos rfl, Http.cStr_of_not_mem hzero]
  rfl

/-- With one colon the service is what is behind it, also if nothing is before it. -/
theorem lookup_one_colon {h s : List UInt8} (hzero : 0 ∉ host) (hb : ¬ Bracketed host)
    (hhost : host = h ++ (':' : UInt8) :: s) (hh : (':' : UInt8) ∉ h) (hs : (':' : UInt8) ∉ s) :
    lookup host = (if h = [] then host else h, some s) := by
  have hcolon : lookupColon host = (h, some (h.length + 1)) := by
    rw [hhost, lookupColon_eq hh, if_neg hs]
  have hdrop : host.drop (h.length + 1) = s := by
    rw [hhost, List.drop_append, List.drop_of_length_le (by omega), Nat.add_sub_cancel_left]
    rfl
  have hservice : cStr s = s := by
    refine cStr_of_sublist hzero ?_
    rw [hhost]
    exact (List.sublist_cons_self _ _).trans (List.sublist_append_right _ _)
  have hnode : cStr (if h = [] then host else h) = if h = [] then host else h := by
    split
    · exact Http.cStr_of_not_mem hzero
    · refine cStr_of_sublist hzero ?_
      rw [hhost]
      exact List.sublist_append_left _ _
  rw [lookup_of_not_bracketed hb, hcolon, hnode, Option.map_some, hdrop, hservice]

/-- With more colons the whole string is the node, and it is the service from the first one on. -/
theorem lookup_more_colons {h s : List UInt8} (hzero : 0 ∉ host) (hb : ¬ Bracketed host)
    (hhost : host = h ++ (':' : UInt8) :: s) (hh : (':' : UInt8) ∉ h) (hs : (':' : UInt8) ∈ s) :
    lookup host = (host, some ((':' : UInt8) :: s)) := by
  have hcolon : lookupColon host = ([], some h.length) := by
    rw [hhost, lookupColon_eq hh, if_pos hs]
  have hdrop : host.drop h.length = (':' : UInt8) :: s := by
    rw [hhost, List.drop_left]
  have hservice : cStr ((':' : UInt8) :: s) = (':' : UInt8) :: s := by
    refine cStr_of_sublist hzero ?_
    rw [hhost]
    exact List.sublist_append_right _ _
  rw [lookup_of_not_bracketed hb, hcolon, if_pos rfl, Http.cStr_of_not_mem hzero, Option.map_some,
    hdrop, hservice]

/-! ## Where the split is right -/

/-- Outside brackets a service goes with a node that is not the whole host. -/
theorem Splits.node_shorter {pair : List UInt8 × Option (List UInt8)} (h : Splits host pair) :
    Bracketed host ∨ (pair.2 ≠ none → pair.1.length < host.length) := by
  cases h with
  | bracketService hne hx => exact .inl ⟨_, _, rfl, hne, hx⟩
  | bracket hne hx => exact .inl ⟨_, _, rfl, hne, hx⟩
  | nodeService =>
      refine .inr fun _ => ?_
      dsimp only
      rw [List.length_append, List.length_cons]
      omega
  | node => exact .inr fun hsome => absurd rfl hsome

theorem not_splits_whole (hb : ¬ Bracketed host) (s : List UInt8) :
    ¬ Splits host (host, some s) := by
  intro h
  exact Nat.lt_irrefl _ (h.node_shorter.resolve_left hb nofun)

theorem count_colon_le_one_iff {h s : List UInt8} (hh : (':' : UInt8) ∉ h) :
    (h ++ (':' : UInt8) :: s).count (':' : UInt8) ≤ 1 ↔ (':' : UInt8) ∉ s := by
  rw [List.count_append, List.count_eq_zero_of_not_mem hh, List.count_cons_self,
    ← List.count_eq_zero]
  omega

/-- Brackets are always right; without them the host may have one colon, not at its start. -/
theorem lookup_splits_iff (hzero : 0 ∉ host) : Splits host (lookup host) ↔
    Bracketed host ∨ host.count (':' : UInt8) ≤ 1 ∧ host.head? ≠ some (':' : UInt8) := by
  by_cases hb : Bracketed host
  · refine iff_of_true ?_ (.inl hb)
    obtain ⟨x, rest, hhost, hne, hx⟩ := hb
    rw [lookup_bracket hzero hhost hne hx, hhost]
    split
    · rename_i hhead
      obtain ⟨s, rfl⟩ := List.head?_eq_some_iff.mp hhead
      exact .bracketService hne hx
    · rename_i hhead
      exact .bracket hne hx hhead
  · rw [or_iff_right hb]
    by_cases hcolon : (':' : UInt8) ∈ host
    · obtain ⟨h, s, hhost, hh⟩ := List.eq_append_cons_of_mem hcolon
      by_cases hs : (':' : UInt8) ∈ s
      -- with a second colon the whole host is the node
      · rw [lookup_more_colons hzero hb hhost hh hs]
        refine iff_of_false (not_splits_whole hb _) fun hok => ?_
        rw [hhost, count_colon_le_one_iff hh] at hok
        exact hok.1 hs
      · rw [lookup_one_colon hzero hb hhost hh hs]
        -- a colon in front leaves no node
        by_cases hnil : h = []
        · rw [if_pos hnil]
          refine iff_of_false (not_splits_whole hb _) fun hok => hok.2 ?_
          rw [hhost, hnil]
          rfl
        · rw [if_neg hnil]
          refine iff_of_true ?_ ⟨?_, ?_⟩
          · rw [hhost] at hb ⊢
            exact .nodeService hb hnil hh hs
          · rw [hhost]
            exact (count_colon_le_one_iff hh).mpr hs
          · rw [hhost]
            intro hhead
            cases h with
            | nil => exact hnil rfl
            | cons c h => exact hh (List.mem_cons.mpr (.inl (Option.some.inj hhead).symm))
    · rw [lookup_without_colon hzero hb hcolon]
      refine iff_of_true (.node hb ?_) ⟨?_, ?_⟩
      · rintro ⟨h, s, rfl, -⟩
        exact hcolon (List.mem_append_right _ List.mem_cons_self)
      · rw [List.count_eq_zero_of_not_mem hcolon]
        exact Nat.zero_le 1
      · intro hhead
        exact hcolon (List.mem_of_mem_head? hhead)

theorem lookup_splits_loopback : Splits (bytes "[::1]:80") (lookup (bytes "[::1]:80")) ∧
    lookup (bytes "[::1]:80") = (bytes "::1", some (bytes "80")) :=
  ⟨(lookup_splits_iff (by decide)).mpr (.inl ⟨bytes "::1", bytes ":80", by decide, by decide,
    by decide⟩), by decide⟩

/-- An address without brackets is handed over with the text from its first colon on as service. -/
theorem lookup_splits_literal :
    lookup (bytes "fe80::1") = (bytes "fe80::1", some (bytes "::1")) ∧
    ¬ ∀ host, 0 ∉ host → Splits host (lookup host) := by
  have hlookup : lookup (bytes "fe80::1") = (bytes "fe80::1", some (bytes "::1")) := by decide
  refine ⟨hlookup, fun h => ?_⟩
  have hsplits := h (bytes "fe80::1") (by decide)
  rw [hlookup] at hsplits
  refine not_splits_whole ?_ _ hsplits
  rintro ⟨x, rest, hhost, -⟩
  exact absurd (List.cons.inj hhost).1 (by decide)

end Gxh.Address
