import Mathlib.Data.List.Basic

/-!
# String literals of MySQL

Single-quoted literals as MySQL reads them by default: a quote inside is written twice or behind
a backslash, and a backslash takes the next byte with it. `lex` reads one literal off the front of
a text.

* `Scans` are the steps of the lexer, and `scans_of_scan`, `Scans.scan_eq` tie the two;
* `lex_append` — what follows a literal does not change it, unless it is a quote;
* `denotes_enclose` — a plain string stands for itself between quotes;
* `Denotes.plain` — and only a plain string has a literal as short as that.
-/

namespace Gxh.SqlLiteral

def quote : UInt8 := 39

def backslash : UInt8 := 92

/-- What a backslash and `e` stand for. `\%` and `\_` keep the backslash. -/
def unescape (e : UInt8) : List UInt8 :=
  if e = 48 then [0]
  else if e = 98 then [8]
  else if e = 110 then [10]
  else if e = 114 then [13]
  else if e = 116 then [9]
  else if e = 90 then [26]
  else if e = 37 ∨ e = 95 then [backslash, e]
  else [e]

/-- The literal behind its opening quote: what it denotes and what follows it. -/
def scan : List UInt8 → Option (List UInt8 × List UInt8)
  | [] => none
  | [c] => if c = quote then some ([], []) else none
  | c :: d :: rest =>
      if c = quote then
        if d = quote then (scan rest).map fun r => (quote :: r.1, r.2) else some ([], d :: rest)
      else if c = backslash then (scan rest).map fun r => (unescape d ++ r.1, r.2)
      else (scan (d :: rest)).map fun r => (c :: r.1, r.2)

/-- A literal at the front of a text. -/
def lex : List UInt8 → Option (List UInt8 × List UInt8)
  | [] => none
  | c :: rest => if c = quote then scan rest else none

/-- The text is one literal, and it denotes `value`. -/
def Denotes (l value : List UInt8) : Prop := lex l = some (value, [])

/-- No quote, and a backslash only before `%` or `_`. -/
def plain : List UInt8 → Bool
  | [] => true
  | [c] => c ≠ quote && c ≠ backslash
  | c :: d :: rest =>
      if c = quote then false
      else if c = backslash then (d = 37 || d = 95) && plain rest
      else plain (d :: rest)

/-- The strings between quotes. -/
def enclose (v : List UInt8) : List UInt8 := quote :: (v ++ [quote])

theorem length_unescape (e : UInt8) :
    (unescape e).length = if e = 37 ∨ e = 95 then 2 else 1 := by
  unfold unescape
  repeat' split
  all_goals first | rfl | simp_all

/-! ## Reading, step by step -/

/-- The steps of `scan`: `Scans l v r` when `l` is the rest of a literal that denotes `v`, and `r`
follows it. -/
inductive Scans : List UInt8 → List UInt8 → List UInt8 → Prop
  | close {r} : r.head? ≠ some quote → Scans (quote :: r) [] r
  | doubled {l v r} : Scans l v r → Scans (quote :: quote :: l) (quote :: v) r
  | escaped {l v r} (d : UInt8) : Scans l v r → Scans (backslash :: d :: l) (unescape d ++ v) r
  | other {l v r} {c : UInt8} : c ≠ quote → c ≠ backslash → Scans l v r → Scans (c :: l) (c :: v) r

theorem scans_of_scan {l v r : List UInt8} (h : scan l = some (v, r)) : Scans l v r := by
  -- one case for each branch of `scan`; those that fail contradict `h`
  induction l using scan.induct generalizing v with
  | case1 => cases h
  | case2 =>
      cases h
      exact .close (by simp)
  | case3 c hc =>
      rw [scan, if_neg hc] at h
      cases h
  | case4 rest ih =>
      rw [scan, if_pos rfl, if_pos rfl] at h
      obtain ⟨⟨v', r'⟩, hrest, heq⟩ := Option.map_eq_some_iff.mp h
      cases heq
      exact .doubled (ih hrest)
  | case5 d rest hd =>
      rw [scan, if_pos rfl, if_neg hd] at h
      cases h
      exact .close (by simpa using hd)
  | case6 d rest hq ih =>
      rw [scan, if_neg hq, if_pos rfl] at h
      obtain ⟨⟨v', r'⟩, hrest, heq⟩ := Option.map_eq_some_iff.mp h
      cases heq
      exact .escaped d (ih hrest)
  | case7 c d rest hq hb ih =>
      rw [scan, if_neg hq, if_neg hb] at h
      obtain ⟨⟨v', r'⟩, hrest, heq⟩ := Option.map_eq_some_iff.mp h
      cases heq
      exact .other hq hb (ih hrest)

theorem Scans.scan_eq {l v r : List UInt8} (h : Scans l v r) : scan l = some (v, r) := by
  induction h with
  | close hr =>
      rename_i r
      cases r with
      | nil => rfl
      | cons d rest =>
          have hd : d ≠ quote := by simpa using hr
          rw [scan, if_pos rfl, if_neg hd]
  | doubled _ ih =>
      rw [scan, if_pos rfl, if_pos rfl, ih]
      rfl
  | escaped d _ ih =>
      rw [scan, if_neg (by decide), if_pos rfl, ih]
      rfl
  | other hq hb hrest ih =>
      rename_i l v r c
      cases l with
      | nil => cases hrest
      | cons d rest =>
          rw [scan, if_neg hq, if_neg hb, ih]
          rfl

/-- What follows the literal is read as before. -/
theorem Scans.append {l v r more : List UInt8} (h : Scans l v r)
    (hmore : r = [] → more.head? ≠ some quote) : Scans (l ++ more) v (r ++ more) := by
  induction h with
  | close hr =>
      rename_i r
      refine .close ?_
      cases r with
      | nil => exact hmore rfl
      | cons d rest => exact hr
  | doubled _ ih => exact .doubled (ih hmore)
  | escaped d _ ih =>
      exact .escaped d (ih hmore)
  | other hq hb _ ih => exact .other hq hb (ih hmore)

/-- A literal is at least as long as what it denotes and its quotes. -/
theorem Scans.length {l v r : List UInt8} (h : Scans l v r) :
    v.length + 1 + r.length ≤ l.length := by
  induction h with
  | close hr =>
      rename_i r
      rw [List.length_cons, List.length_nil]
      omega
  | doubled _ ih =>
      simp only [List.length_cons]
      omega
  | escaped d _ ih =>
      have hle : (unescape d).length ≤ 2 := by
        rw [length_unescape]
        split <;> omega
      simp only [List.length_cons, List.length_append]
      omega
  | other hq hb _ ih =>
      simp only [List.length_cons]
      omega

/-! ## Plain strings -/

theorem plain_cons {c : UInt8} {v : List UInt8} (hq : c ≠ quote) (hb : c ≠ backslash) :
    plain (c :: v) = plain v := by
  cases v with
  | nil => simp [plain, hq, hb]
  | cons d rest => rw [plain, if_neg hq, if_neg hb]

/-- A literal that is no longer than that is the string itself between quotes, and plain. -/
theorem Scans.tight {l v r : List UInt8} (h : Scans l v r)
    (hlen : l.length = v.length + 1 + r.length) : l = v ++ quote :: r ∧ plain v = true := by
  induction h with
  | close _ => exact ⟨rfl, rfl⟩
  | doubled hrest ih =>
      have := hrest.length
      simp only [List.length_cons] at hlen
      omega
  | escaped d hrest ih =>
      rename_i l v r
      have hle := hrest.length
      rw [List.length_cons, List.length_cons, List.length_append, length_unescape] at hlen
      split at hlen
      · rename_i hd
        obtain ⟨hl, hv⟩ := ih (by omega)
        have hkept : unescape d = [backslash, d] := by
          rcases hd with rfl | rfl <;> rfl
        refine ⟨by rw [hl, hkept]; rfl, ?_⟩
        rw [hkept]
        show plain (backslash :: d :: v) = true
        rw [plain, if_neg (by decide), if_pos rfl, hv, Bool.and_true]
        simpa using hd
      · omega
  | other hq hb _ ih =>
      simp only [List.length_cons] at hlen
      obtain ⟨hl, hv⟩ := ih (by omega)
      exact ⟨by rw [hl]; rfl, by rw [plain_cons hq hb, hv]⟩

/-- A plain string between quotes is read as itself. -/
theorem scans_plain {v : List UInt8} (h : plain v = true) : Scans (v ++ [quote]) v [] := by
  induction v using plain.induct with
  | case1 => exact .close (by simp)
  | case2 c =>
      have hc : c ≠ quote ∧ c ≠ backslash := by simpa [plain] using h
      exact .other hc.1 hc.2 (.close (by simp))
  | case3 d rest =>
      rw [plain, if_pos rfl] at h
      cases h
  | case4 d rest hq ih =>
      rw [plain, if_neg hq, if_pos rfl, Bool.and_eq_true] at h
      have hd : d = 37 ∨ d = 95 := by simpa using h.1
      have hkept : unescape d = [backslash, d] := by
        rcases hd with rfl | rfl <;> rfl
      have hscan := Scans.escaped d (ih h.2)
      rw [hkept] at hscan
      exact hscan
  | case5 c d rest hq hb ih =>
      rw [plain, if_neg hq, if_neg hb] at h
      exact .other hq hb (ih h)

/-! ## Whole literals -/

theorem denotes_iff {l v : List UInt8} : Denotes l v ↔ ∃ body, l = quote :: body ∧
    Scans body v [] := by
  unfold Denotes
  cases l with
  | nil =>
      constructor
      · intro h
        cases h
      · rintro ⟨body, hbody, -⟩
        cases hbody
  | cons c rest =>
      show (if c = quote then scan rest else none) = _ ↔ _
      constructor
      · intro h
        split at h
        · rename_i hc
          exact ⟨rest, by rw [hc], scans_of_scan h⟩
        · cases h
      · rintro ⟨body, hbody, hscan⟩
        cases hbody
        rw [if_pos rfl, hscan.scan_eq]

/-- A literal ends where it ended, whatever is put behind it but a quote. -/
theorem lex_append {l v more : List UInt8} (h : Denotes l v) (hmore : more.head? ≠ some quote) :
    lex (l ++ more) = some (v, more) := by
  obtain ⟨body, rfl, hscan⟩ := denotes_iff.mp h
  have happ := hscan.append fun _ => hmore
  rw [List.nil_append] at happ
  show (if quote = quote then scan (body ++ more) else none) = _
  rw [if_pos rfl, happ.scan_eq]

theorem denotes_enclose {v : List UInt8} (h : plain v = true) : Denotes (enclose v) v :=
  denotes_iff.mpr ⟨_, rfl, scans_plain h⟩

theorem Denotes.length {l v : List UInt8} (h : Denotes l v) : v.length + 2 ≤ l.length := by
  obtain ⟨body, rfl, hscan⟩ := denotes_iff.mp h
  have := hscan.length
  simp only [List.length_cons, List.length_nil] at this ⊢
  omega

/-- The denoted string is plain if the literal has no room for more than its bytes. -/
theorem Denotes.plain {l v : List UInt8} (h : Denotes l v) (hlen : l.length = v.length + 2) :
    plain v = true := by
  obtain ⟨body, rfl, hscan⟩ := denotes_iff.mp h
  rw [List.length_cons] at hlen
  exact (hscan.tight (by rw [List.length_nil]; omega)).2

end Gxh.SqlLiteral
