import Gxh.Http.LazyParams
import Gxh.Http.UrlCoding

/-!
# Parameters through `UrlEncode` and back

`StringUtil::UrlEncode`, the texts built from it, and what a request finds in them.

* `urlDecode_urlEncode` — `UrlDecode` inverts `UrlEncode` on every string;
* `parseParam_encodePairs` — `PARSE_PARAM` gives back the pairs, if no key has a `=`;
* `encodePairs_recut` — `uri_chars` lets `=` through, so that a key with one is cut there;
* `params_survive` — when `getParam` and `hasParam` answer by the pairs all the same.
-/

namespace Gxh.Http

open HttpParser OrdMap

/-! ## The encoder -/

/-- `CHAR_IS_UNRESERVED`: the table `uri_chars`, which has a one at `=` too. -/
def isUnreserved (c : UInt8) : Bool :=
  c = '-' || c = '.' || isNum c || c = '=' || isAlpha c || c = '_' || c = '~'

/-- `hexdigits`. -/
def hexDigit (n : UInt8) : UInt8 := if n < 10 then '0' + n else 'A' + (n - 10)

/-- What a byte becomes. -/
def encodeByte (c : UInt8) : List UInt8 :=
  if isUnreserved c then [c]
  else if c = ' ' then ['+']
  else ['%', hexDigit (c >>> 4), hexDigit (c &&& 0xF)]

/-- `StringUtil::UrlEncode`, with a plus for a space. -/
def StringUtil.urlEncode (str : List UInt8) : List UInt8 := str.flatMap encodeByte

/-- The formulas are the tables of the two loops. -/
theorem encodeByte_eq : ∀ c : UInt8,
    encodeByte c = byteCode true c ∧ xdigitChars c = xdigitTable.getD c.toNat 0 :=
  forall_byte (by decide +kernel)

theorem urlEncode_eq (str : List UInt8) :
    StringUtil.urlEncode str = StringUtil.urlEncodeWith true str := by
  rw [urlEncodeWith_eq, StringUtil.urlEncode]
  exact List.flatMap_congr fun c _ => (encodeByte_eq c).1

theorem urlDecode_eq (str : List UInt8) :
    StringUtil.urlDecode str = StringUtil.urlDecodeWith true str := by
  rw [urlDecodeWith_eq]
  induction str using StringUtil.urlDecode.induct with
  | case1 => rw [StringUtil.urlDecode, decoded]
  | case2 rest ih =>
      rw [decoded_space rfl, ← ih, StringUtil.urlDecode.eq_def]
      rfl
  | case3 c hplus a b rest hcode ih =>
      rw [StringUtil.urlDecode, decoded, if_neg hplus, if_pos hcode, if_neg (by simpa using hplus),
        if_pos hcode, ih, (encodeByte_eq a).2, (encodeByte_eq b).2]
      rfl
  | case4 c hplus a b rest hcode ih =>
      rw [StringUtil.urlDecode, decoded, if_neg hplus, if_neg hcode, if_neg (by simpa using hplus),
        if_neg hcode, ih]
  | case5 c hplus rest hshort ih =>
      rw [StringUtil.urlDecode.eq_def, decoded.eq_def]
      simp only [if_neg hplus, ih]
      rw [if_neg (by simpa using hplus)]

theorem urlDecode_urlEncode (str : List UInt8) :
    StringUtil.urlDecode (StringUtil.urlEncode str) = str := by
  rw [urlEncode_eq, urlDecode_eq, urlEncodeWith_eq, urlDecodeWith_eq]
  exact decoded_flatMap str

/-- The bytes of a code: no `&`, and a `=` only for itself. -/
theorem encodeByte_separators : ∀ c : UInt8,
    ('&' : UInt8) ∉ encodeByte c ∧ (c ≠ '=' → ('=' : UInt8) ∉ encodeByte c) :=
  forall_byte (by decide +kernel)

theorem urlEncode_append (x y : List UInt8) :
    StringUtil.urlEncode (x ++ y) = StringUtil.urlEncode x ++ StringUtil.urlEncode y :=
  List.flatMap_append

theorem urlEncode_no_amp (str : List UInt8) : ('&' : UInt8) ∉ StringUtil.urlEncode str := by
  intro hmem
  obtain ⟨c, -, hc⟩ := List.mem_flatMap.mp hmem
  exact (encodeByte_separators c).1 hc

theorem urlEncode_no_eq {str : List UInt8} (h : ('=' : UInt8) ∉ str) :
    ('=' : UInt8) ∉ StringUtil.urlEncode str := by
  intro hmem
  obtain ⟨c, hc, heq⟩ := List.mem_flatMap.mp hmem
  refine (encodeByte_separators c).2 ?_ heq
  rintro rfl
  exact h hc

/-! ## The texts -/

/-- A key and its value. -/
abbrev Pair := List UInt8 × List UInt8

/-- `UrlEncode(key) + '=' + UrlEncode(value)`. -/
def encodePair (e : Pair) : List UInt8 :=
  StringUtil.urlEncode e.1 ++ ('=' : UInt8) :: StringUtil.urlEncode e.2

/-- The pairs, joined with `&`. -/
def encodePairs : List Pair → List UInt8
  | [] => []
  | [e] => encodePair e
  | e :: e' :: rest => encodePair e ++ ('&' : UInt8) :: encodePairs (e' :: rest)

theorem takeWhile_ne_append {c : UInt8} {x : List UInt8} (h : c ∉ x) (rest : List UInt8) :
    (x ++ c :: rest).takeWhile (· ≠ c) = x ∧ (x ++ c :: rest).dropWhile (· ≠ c) = c :: rest := by
  have hall : ∀ a ∈ x, (a ≠ c : Bool) = true := by
    intro a ha
    simpa using fun heq : a = c => h (heq ▸ ha)
  rw [List.takeWhile_append_of_pos hall, List.dropWhile_append_of_pos hall]
  simp

theorem takeWhile_ne_self {c : UInt8} {x : List UInt8} (h : c ∉ x) :
    x.takeWhile (· ≠ c) = x ∧ x.dropWhile (· ≠ c) = [] := by
  have hall : ∀ a ∈ x, (a ≠ c : Bool) = true := by
    intro a ha
    simpa using fun heq : a = c => h (heq ▸ ha)
  exact ⟨List.takeWhile_eq_self_iff.mpr hall, List.dropWhile_eq_nil_iff.mpr hall⟩

/-- `PARSE_PARAM` takes the text apart where it was put together. -/
theorem parseParam_encodePairs {pairs : List Pair} (h : ∀ e ∈ pairs, ('=' : UInt8) ∉ e.1) :
    parseParam '&' id (encodePairs pairs) = pairs := by
  induction pairs with
  | nil => rfl
  | cons e rest ih =>
      have hkey : ('=' : UInt8) ∉ StringUtil.urlEncode e.1 := urlEncode_no_eq (h e (by simp))
      have hval : ('&' : UInt8) ∉ StringUtil.urlEncode e.2 := urlEncode_no_amp e.2
      rw [parseParam_round]
      cases rest with
      | nil =>
          obtain ⟨htake, hdrop⟩ := takeWhile_ne_append hkey (StringUtil.urlEncode e.2)
          obtain ⟨htake', hdrop'⟩ := takeWhile_ne_self hval
          simp only [encodePairs, encodePair, hdrop, htake, htake', hdrop', id, urlDecode_urlEncode]
      | cons e' rest =>
          have hnext := ih fun x hx => h x (List.mem_cons_of_mem _ hx)
          obtain ⟨htake, hdrop⟩ := takeWhile_ne_append hkey
            (StringUtil.urlEncode e.2 ++ ('&' : UInt8) :: encodePairs (e' :: rest))
          obtain ⟨htake', hdrop'⟩ := takeWhile_ne_append hval (encodePairs (e' :: rest))
          have htext : encodePairs (e :: e' :: rest) = StringUtil.urlEncode e.1 ++
              ('=' : UInt8) :: (StringUtil.urlEncode e.2 ++ ('&' : UInt8) ::
                encodePairs (e' :: rest)) := by
            rw [encodePairs, encodePair, List.append_assoc, List.cons_append]
          simp only [htext, hdrop, htake, htake', hdrop', id, urlDecode_urlEncode, hnext]

/-! ## Keys with a `=` -/

/-- A pair as the text of it is read: the key ends at its first `=`, and what follows belongs to
the value. -/
def recut (e : Pair) : Pair :=
  if ('=' : UInt8) ∈ e.1 then
    (e.1.takeWhile (· ≠ ('=' : UInt8)),
      (e.1.dropWhile (· ≠ ('=' : UInt8))).tail ++ ('=' : UInt8) :: e.2)
  else e

theorem recut_eq {before after val : List UInt8} (h : ('=' : UInt8) ∉ before) :
    recut (before ++ ('=' : UInt8) :: after, val) = (before, after ++ ('=' : UInt8) :: val) := by
  obtain ⟨htake, hdrop⟩ := takeWhile_ne_append h after
  unfold recut
  rw [if_pos (by simp)]
  simp only [htake, hdrop, List.tail_cons]

/-- Where a key with a `=` is cut. -/
theorem exists_cut {key : List UInt8} (h : ('=' : UInt8) ∈ key) :
    ∃ before after, key = before ++ ('=' : UInt8) :: after ∧ ('=' : UInt8) ∉ before := by
  obtain ⟨before, after, heq, hnot⟩ := List.eq_append_cons_of_mem h
  exact ⟨before, after, heq, hnot⟩

theorem recut_no_eq (e : Pair) : ('=' : UInt8) ∉ (recut e).1 := by
  by_cases h : ('=' : UInt8) ∈ e.1
  · obtain ⟨before, after, heq, hnot⟩ := exists_cut h
    obtain ⟨key, val⟩ := e
    have hkey : key = before ++ ('=' : UInt8) :: after := heq
    rw [hkey, recut_eq hnot]
    exact hnot
  · rw [recut, if_neg h]
    exact h

/-- Both pairs have the same text, because `=` is its own code. -/
theorem encodePair_recut (e : Pair) : encodePair (recut e) = encodePair e := by
  by_cases h : ('=' : UInt8) ∈ e.1
  · obtain ⟨before, after, heq, hnot⟩ := exists_cut h
    obtain ⟨key, val⟩ := e
    have hkey : key = before ++ ('=' : UInt8) :: after := heq
    have hcode : ∀ x : List UInt8, StringUtil.urlEncode (('=' : UInt8) :: x) =
        ('=' : UInt8) :: StringUtil.urlEncode x := fun _ => rfl
    rw [hkey, recut_eq hnot]
    simp only [encodePair, urlEncode_append, hcode, List.append_assoc, List.cons_append]
  · rw [recut, if_neg h]

theorem encodePairs_recut (pairs : List Pair) :
    encodePairs (pairs.map recut) = encodePairs pairs := by
  induction pairs with
  | nil => rfl
  | cons e rest ih =>
      cases rest with
      | nil => exact encodePair_recut e
      | cons e' rest =>
          rw [List.map_cons] at ih
          rw [List.map_cons, List.map_cons, encodePairs, ih, encodePair_recut, encodePairs]

/-- What any list of pairs is parsed as. -/
theorem parseParam_pairs (pairs : List Pair) :
    parseParam '&' id (encodePairs pairs) = pairs.map recut := by
  have h : ∀ e ∈ pairs.map recut, ('=' : UInt8) ∉ e.1 := by
    intro e he
    obtain ⟨x, -, rfl⟩ := List.mem_map.mp he
    exact recut_no_eq x
  rw [← encodePairs_recut, parseParam_encodePairs h]

/-! ## What a request finds -/

/-- A new request that carries the text as its query, or as a form. -/
inductive Carries (text : List UInt8) : LazyRequest → Prop
  | query (r : HttpRequest) : r.query = text → r.formEntries = [] → Carries text { r with }
  | form (r : HttpRequest) : r.query = [] → r.body = text →
      strcasestr (r.getHeader (bytes "content-type"))
        (bytes "application/x-www-form-urlencoded") = true → Carries text { r with }

/-- The pair is found under `key`: its key, up to the first `=` and the first NUL, is that of `key`
up to case and the first NUL. -/
def takes (key : List UInt8) (e : Pair) : Bool := caseKey (recut e).1 = caseKey key

/-- What the map returns for `key`. -/
def taken (pairs : List Pair) (key : List UInt8) : Option (List UInt8) :=
  (pairs.find? (takes key)).map fun e => (recut e).2

theorem first_recut (pairs : List Pair) (key : List UInt8) :
    first caseInsensitiveLess key (pairs.map recut) = taken pairs key := by
  induction pairs with
  | nil => rfl
  | cons e rest ih =>
      have hsame := equivalent_iff ranks_caseKey (recut e).1 key
      rw [List.map_cons, taken, List.find?_cons]
      show (if (!caseInsensitiveLess (recut e).1 key && !caseInsensitiveLess key (recut e).1) = true
        then some (recut e).2 else first caseInsensitiveLess key (rest.map recut)) = _
      by_cases heq : caseKey (recut e).1 = caseKey key
      · rw [if_pos (hsame.mpr heq), takes, decide_eq_true heq]
        rfl
      · rw [if_neg (mt hsame.mp heq), takes, decide_eq_false heq, ih]
        rfl

theorem Carries.find {pairs : List Pair} {r : LazyRequest} (h : Carries (encodePairs pairs) r)
    (key : List UInt8) :
    r.initQueryParam.initBodyParam.params.find caseInsensitiveLess key = taken pairs key := by
  rw [LazyRequest.find_initParams, ← first_recut, ← parseParam_pairs]
  cases h with
  | query r hquery hform =>
      show (none : Option (List UInt8)).or
        (first caseInsensitiveLess key (parseParam '&' id r.query ++ r.formEntries)) = _
      rw [hquery, hform, List.append_nil, Option.none_or]
  | form r hquery hbody htype =>
      show (none : Option (List UInt8)).or
        (first caseInsensitiveLess key (parseParam '&' id r.query ++ r.formEntries)) = _
      rw [hquery, HttpRequest.formEntries, if_pos htype, hbody, Option.none_or]
      rfl

/-- `getParam` returns the value paired with the key, and `hasParam` is false for a key that is
none of the keys up to case. -/
def Survives (pairs : List Pair) (r : LazyRequest) (key : List UInt8) : Prop :=
  (∀ val, (key, val) ∈ pairs → (r.getParam key []).1 = val) ∧
  ((∀ e ∈ pairs, e.1.map tolower ≠ key.map tolower) → (r.hasParam key).1 = none)

/-- Of the pairs found under the key the first has the paired value, or there is none and the value
is empty; and nothing is found under a key that is none of the keys. -/
structure Unmixed (pairs : List Pair) (key : List UInt8) : Prop where
  listed : ∀ val, (key, val) ∈ pairs →
    (∃ e, pairs.find? (takes key) = some e ∧ (recut e).2 = val) ∨
      (∀ e ∈ pairs, takes key e = false) ∧ val = []
  unlisted : (∀ e ∈ pairs, e.1.map tolower ≠ key.map tolower) → ∀ e ∈ pairs, takes key e = false

theorem taken_eq_none {pairs : List Pair} {key : List UInt8} :
    taken pairs key = none ↔ ∀ e ∈ pairs, takes key e = false := by
  rw [taken, Option.map_eq_none_iff, List.find?_eq_none]
  simp only [Bool.not_eq_true]

theorem params_survive {pairs : List Pair} {r : LazyRequest} (h : Carries (encodePairs pairs) r)
    (key : List UInt8) : Survives pairs r key ↔ Unmixed pairs key := by
  have hget : (r.getParam key []).1 = (taken pairs key).getD [] := by
    rw [← h.find key]
    rfl
  have hhas : (r.hasParam key).1 = taken pairs key := h.find key
  unfold Survives
  rw [hget, hhas, taken_eq_none]
  constructor
  · rintro ⟨hlisted, hunlisted⟩
    refine ⟨?_, hunlisted⟩
    intro val hval
    have hvalue := hlisted val hval
    -- the pair found under the key is the first one of the map
    cases hfind : pairs.find? (takes key) with
    | some e =>
        rw [taken, hfind] at hvalue
        exact .inl ⟨e, rfl, hvalue⟩
    | none =>
        have hnone : taken pairs key = none := by rw [taken, hfind, Option.map_none]
        rw [hnone] at hvalue
        exact .inr ⟨taken_eq_none.mp hnone, hvalue.symm⟩
  · rintro ⟨hlisted, hunlisted⟩
    refine ⟨?_, hunlisted⟩
    intro val hval
    rcases hlisted val hval with ⟨e, hfind, hvalue⟩ | ⟨hnone, hempty⟩
    · rw [taken, hfind]
      exact hvalue
    · rw [taken_eq_none.mpr hnone, hempty]
      rfl

/-- Under keys without `=` and NUL, the keys themselves are looked up. -/
theorem takes_of_plain {key : List UInt8} {e : Pair} (heq : ('=' : UInt8) ∉ e.1) (hnul : 0 ∉ e.1)
    (hkey : 0 ∉ key) : takes key e = true ↔ e.1.map tolower = key.map tolower := by
  have hinj : Function.Injective UInt8.toNat := fun _ _ => UInt8.toNat_inj.mp
  rw [takes, recut, if_neg heq, caseKey, caseKey, cStr_of_not_mem hnul, cStr_of_not_mem hkey,
    decide_eq_true_iff]
  show e.1.map (UInt8.toNat ∘ tolower) = key.map (UInt8.toNat ∘ tolower) ↔ _
  rw [← List.map_map, ← List.map_map]
  exact (List.map_injective_iff.mpr hinj).eq_iff

/-- Different keys without `=` and NUL are not mixed up. -/
theorem Unmixed.of_plain {pairs : List Pair} {key : List UInt8}
    (hdistinct : pairs.Pairwise fun a b => a.1.map tolower ≠ b.1.map tolower)
    (hplain : ∀ e ∈ pairs, ('=' : UInt8) ∉ e.1 ∧ 0 ∉ e.1) (hkey : 0 ∉ key) :
    Unmixed pairs key := by
  have hsymm : Std.Symm fun a b : Pair => a.1.map tolower ≠ b.1.map tolower :=
    ⟨fun _ _ h => h.symm⟩
  have htakes : ∀ e ∈ pairs, (takes key e = true ↔ e.1.map tolower = key.map tolower) :=
    fun e he => takes_of_plain (hplain e he).1 (hplain e he).2 hkey
  constructor
  · intro val hval
    left
    have hself : takes key (key, val) = true := (htakes _ hval).mpr rfl
    cases hfind : pairs.find? (takes key) with
    | none => exact absurd hself (List.find?_eq_none.mp hfind _ hval)
    | some e =>
        have hmem : e ∈ pairs := List.mem_of_find?_eq_some hfind
        have hcase := (htakes e hmem).mp (List.find?_some hfind)
        have hsame : e = (key, val) := by
          by_contra hne
          exact hdistinct.forall hmem hval hne hcase
        refine ⟨e, rfl, ?_⟩
        rw [recut, if_neg (hplain e hmem).1, hsame]
  · intro hnew e he
    rw [Bool.eq_false_iff]
    exact fun h => hnew e he ((htakes e he).mp h)

theorem params_survive_plain :
    Survives [(bytes "Name", bytes "x y"), (bytes "q", bytes "50%&=")]
      { query := bytes "Name=x+y&q=50%25%26=" } (bytes "Name") := by
  have hcarries : Carries (encodePairs [(bytes "Name", bytes "x y"), (bytes "q", bytes "50%&=")])
      { query := bytes "Name=x+y&q=50%25%26=" } :=
    .query { query := bytes "Name=x+y&q=50%25%26=" } (by decide) (by decide)
  apply (params_survive hcarries (bytes "Name")).mpr
  refine Unmixed.of_plain (by simp; decide) ?_ (by decide)
  exact List.forall_mem_cons.mpr ⟨by decide, List.forall_mem_singleton.mpr (by decide)⟩

/-- The key `a=b`: nothing is found under it, and something under `a`. -/
theorem equals_sign_cuts_key :
    Carries (encodePairs [(bytes "a=b", bytes "c")]) { query := bytes "a=b=c" } ∧
    ¬Survives [(bytes "a=b", bytes "c")] { query := bytes "a=b=c" } (bytes "a=b") ∧
    ¬Survives [(bytes "a=b", bytes "c")] { query := bytes "a=b=c" } (bytes "a") := by
  refine ⟨.query { query := bytes "a=b=c" } (by decide) (by decide), ?_, ?_⟩
  · intro h
    have hval := h.1 (bytes "c") (List.mem_singleton.mpr rfl)
    exact absurd hval (by decide)
  · intro h
    have hnone := h.2 (List.forall_mem_singleton.mpr (by decide))
    exact absurd hnone (by decide)

end Gxh.Http
