import Gxh.Http.Params
import Gxh.Lib.Bytes

/-!
# `UrlEncode` and `UrlDecode`

The two loops of `StringUtil` for either value of `space_as_plus`, with their tables and with the
string `ss` that is made when the first byte has to change. What a loop returns is a text with
every byte replaced by its code, and a text with every code replaced by its byte:
`urlDecode_urlEncode` of the two loops, and the bytes of a code.
-/

namespace Gxh.Http

open HttpParser

/-! ## The tables -/

/-- `uri_chars`. -/
def uriChars : List UInt8 := [
    0, 0, 0, 0, 0, 0, 0, 0, 0, 0, 0, 0, 0, 0, 0, 0,
    0, 0, 0, 0, 0, 0, 0, 0, 0, 0, 0, 0, 0, 0, 0, 0,
    0, 0, 0, 0, 0, 0, 0, 0, 0, 0, 0, 0, 0, 1, 1, 0,
    1, 1, 1, 1, 1, 1, 1, 1, 1, 1, 0, 0, 0, 1, 0, 0,
    0, 1, 1, 1, 1, 1, 1, 1, 1, 1, 1, 1, 1, 1, 1, 1,
    1, 1, 1, 1, 1, 1, 1, 1, 1, 1, 1, 0, 0, 0, 0, 1,
    0, 1, 1, 1, 1, 1, 1, 1, 1, 1, 1, 1, 1, 1, 1, 1,
    1, 1, 1, 1, 1, 1, 1, 1, 1, 1, 1, 0, 0, 0, 1, 0,
    0, 0, 0, 0, 0, 0, 0, 0, 0, 0, 0, 0, 0, 0, 0, 0,
    0, 0, 0, 0, 0, 0, 0, 0, 0, 0, 0, 0, 0, 0, 0, 0,
    0, 0, 0, 0, 0, 0, 0, 0, 0, 0, 0, 0, 0, 0, 0, 0,
    0, 0, 0, 0, 0, 0, 0, 0, 0, 0, 0, 0, 0, 0, 0, 0,
    0, 0, 0, 0, 0, 0, 0, 0, 0, 0, 0, 0, 0, 0, 0, 0,
    0, 0, 0, 0, 0, 0, 0, 0, 0, 0, 0, 0, 0, 0, 0, 0,
    0, 0, 0, 0, 0, 0, 0, 0, 0, 0, 0, 0, 0, 0, 0, 0,
    0, 0, 0, 0, 0, 0, 0, 0, 0, 0, 0, 0, 0, 0, 0, 0]

/-- `xdigit_chars`. -/
def xdigitTable : List UInt8 := [
    0, 0, 0, 0, 0, 0, 0, 0, 0, 0, 0, 0, 0, 0, 0, 0,
    0, 0, 0, 0, 0, 0, 0, 0, 0, 0, 0, 0, 0, 0, 0, 0,
    0, 0, 0, 0, 0, 0, 0, 0, 0, 0, 0, 0, 0, 0, 0, 0,
    0, 1, 2, 3, 4, 5, 6, 7, 8, 9, 0, 0, 0, 0, 0, 0,
    0, 10, 11, 12, 13, 14, 15, 0, 0, 0, 0, 0, 0, 0, 0, 0,
    0, 0, 0, 0, 0, 0, 0, 0, 0, 0, 0, 0, 0, 0, 0, 0,
    0, 10, 11, 12, 13, 14, 15, 0, 0, 0, 0, 0, 0, 0, 0, 0,
    0, 0, 0, 0, 0, 0, 0, 0, 0, 0, 0, 0, 0, 0, 0, 0,
    0, 0, 0, 0, 0, 0, 0, 0, 0, 0, 0, 0, 0, 0, 0, 0,
    0, 0, 0, 0, 0, 0, 0, 0, 0, 0, 0, 0, 0, 0, 0, 0,
    0, 0, 0, 0, 0, 0, 0, 0, 0, 0, 0, 0, 0, 0, 0, 0,
    0, 0, 0, 0, 0, 0, 0, 0, 0, 0, 0, 0, 0, 0, 0, 0,
    0, 0, 0, 0, 0, 0, 0, 0, 0, 0, 0, 0, 0, 0, 0, 0,
    0, 0, 0, 0, 0, 0, 0, 0, 0, 0, 0, 0, 0, 0, 0, 0,
    0, 0, 0, 0, 0, 0, 0, 0, 0, 0, 0, 0, 0, 0, 0, 0,
    0, 0, 0, 0, 0, 0, 0, 0, 0, 0, 0, 0, 0, 0, 0, 0]

/-- `CHAR_IS_UNRESERVED`. -/
def charIsUnreserved (c : UInt8) : Bool := uriChars.getD c.toNat 0 ≠ 0

def hexdigits : List UInt8 := bytes "0123456789ABCDEF"

/-- `hexdigits[n]`. -/
def hexdigit (n : UInt8) : UInt8 := hexdigits.getD n.toNat 0

/-- `xdigit_chars[a] << 4 | xdigit_chars[b]`. -/
def hexByte (a b : UInt8) : UInt8 :=
  xdigitTable.getD a.toNat 0 <<< 4 ||| xdigitTable.getD b.toNat 0

/-! ## The loops -/

namespace StringUtil

variable (spaceAsPlus : Bool)

/-- The loop of `UrlEncode`: `before` is what `c` has passed, and the last argument the rest.
Nothing is stored in `ss` until a byte has to change. -/
def urlEncodeLoop (before : List UInt8) (ss : Option (List UInt8)) :
    List UInt8 → Option (List UInt8)
  | [] => ss
  | c :: rest =>
      if !charIsUnreserved c then
        let ss := ss.getD before
        if c = ' ' && spaceAsPlus then
          urlEncodeLoop (before ++ [c]) (some (ss ++ [('+' : UInt8)])) rest
        else
          urlEncodeLoop (before ++ [c])
            (some (ss ++ [('%' : UInt8)] ++ [hexdigit (c >>> 4)] ++ [hexdigit (c &&& 0xF)])) rest
      else urlEncodeLoop (before ++ [c]) (ss.map (· ++ [c])) rest

/-- `StringUtil::UrlEncode`. -/
def urlEncodeWith (str : List UInt8) : List UInt8 :=
  (urlEncodeLoop spaceAsPlus [] none str).getD str

/-- The loop of `UrlDecode`. -/
def urlDecodeLoop (before : List UInt8) (ss : Option (List UInt8)) :
    List UInt8 → Option (List UInt8)
  | [] => ss
  | c :: rest =>
      if c = '+' && spaceAsPlus then
        urlDecodeLoop (before ++ [c]) (some (ss.getD before ++ [(' ' : UInt8)])) rest
      else match rest with
        | a :: b :: rest' =>
            if c = '%' && isxdigit a && isxdigit b then
              urlDecodeLoop (before ++ [c, a, b]) (some (ss.getD before ++ [hexByte a b])) rest'
            else urlDecodeLoop (before ++ [c]) (ss.map (· ++ [c])) (a :: b :: rest')
        | rest' => urlDecodeLoop (before ++ [c]) (ss.map (· ++ [c])) rest'

/-- `StringUtil::UrlDecode`. -/
def urlDecodeWith (str : List UInt8) : List UInt8 :=
  (urlDecodeLoop spaceAsPlus [] none str).getD str

end StringUtil

/-! ## What they compute -/

/-- What a byte becomes. -/
def byteCode (spaceAsPlus : Bool) (c : UInt8) : List UInt8 :=
  if charIsUnreserved c then [c]
  else if c = ' ' && spaceAsPlus then ['+']
  else ['%', hexdigit (c >>> 4), hexdigit (c &&& 0xF)]

/-- The text with every code replaced by its byte. -/
def decoded (spaceAsPlus : Bool) : List UInt8 → List UInt8
  | [] => []
  | c :: rest =>
      if c = '+' && spaceAsPlus then (' ' : UInt8) :: decoded spaceAsPlus rest
      else match rest with
        | a :: b :: rest' =>
            if c = '%' && isxdigit a && isxdigit b then hexByte a b :: decoded spaceAsPlus rest'
            else c :: decoded spaceAsPlus (a :: b :: rest')
        | rest' => c :: decoded spaceAsPlus rest'

variable {spaceAsPlus : Bool}

theorem decoded_space {c : UInt8} (h : (c = '+' && spaceAsPlus) = true) (rest : List UInt8) :
    decoded spaceAsPlus (c :: rest) = (' ' : UInt8) :: decoded spaceAsPlus rest := by
  rw [decoded.eq_def]
  simp only [if_pos h]

theorem decoded_code {c a b : UInt8} (hplus : ¬(c = '+' && spaceAsPlus) = true)
    (h : (c = '%' && isxdigit a && isxdigit b) = true) (rest : List UInt8) :
    decoded spaceAsPlus (c :: a :: b :: rest) = hexByte a b :: decoded spaceAsPlus rest := by
  rw [decoded, if_neg hplus, if_pos h]

/-- A byte that no code begins with. -/
theorem decoded_plain {c : UInt8} {rest : List UInt8} (hplus : ¬(c = '+' && spaceAsPlus) = true)
    (h : ∀ a b rest', rest = a :: b :: rest' → ¬(c = '%' && isxdigit a && isxdigit b) = true) :
    decoded spaceAsPlus (c :: rest) = c :: decoded spaceAsPlus rest := by
  rw [decoded.eq_def]
  simp only [if_neg hplus]
  split
  · rw [if_neg (h _ _ _ rfl)]
  · rfl

/-- A byte that stays is added to what there is of `ss`; if there is nothing, it is in the text. -/
theorem getD_map_concat (ss : Option (List UInt8)) (before : List UInt8) (c : UInt8) :
    (ss.map (· ++ [c])).getD (before ++ [c]) = ss.getD before ++ [c] := by
  cases ss with
  | none => rfl
  | some ss => rfl

/-- With `ss`, or what the loop has passed as long as there is none, the loop returns the codes of
the rest after it. -/
theorem urlEncodeLoop_eq (rest before : List UInt8) (ss : Option (List UInt8)) :
    (StringUtil.urlEncodeLoop spaceAsPlus before ss rest).getD (before ++ rest) =
      ss.getD before ++ rest.flatMap (byteCode spaceAsPlus) := by
  induction rest generalizing before ss with
  | nil =>
      rw [List.append_nil, List.flatMap_nil, List.append_nil]
      rfl
  | cons c rest ih =>
      rw [List.append_cons, List.flatMap_cons, StringUtil.urlEncodeLoop, byteCode,
        ← List.append_assoc]
      cases hfree : charIsUnreserved c with
      | true =>
          -- the byte stays, in `ss` or in what has been passed
          rw [if_neg (by simp), ih, getD_map_concat, if_pos rfl]
      | false =>
          rw [if_pos (by simp), if_neg Bool.false_ne_true]
          by_cases hspace : (c = ' ' && spaceAsPlus) = true
          · rw [if_pos hspace, if_pos hspace, ih]
            rfl
          · rw [if_neg hspace, if_neg hspace, ih, List.append_assoc, List.append_assoc]
            rfl

theorem urlDecodeLoop_eq (rest before : List UInt8) (ss : Option (List UInt8)) :
    (StringUtil.urlDecodeLoop spaceAsPlus before ss rest).getD (before ++ rest) =
      ss.getD before ++ decoded spaceAsPlus rest := by
  induction rest using decoded.induct spaceAsPlus generalizing before ss with
  | case1 =>
      rw [List.append_nil, decoded, List.append_nil]
      rfl
  | case2 c rest hplus ih =>
      rw [List.append_cons, StringUtil.urlDecodeLoop.eq_def, decoded_space hplus]
      simp only [if_pos hplus]
      rw [ih]
      exact (List.append_cons _ _ _).symm
  | case3 c hplus a b rest hcode ih =>
      -- three bytes are passed at once
      have hsplit : before ++ c :: a :: b :: rest = before ++ [c, a, b] ++ rest := by simp
      rw [hsplit, StringUtil.urlDecodeLoop, if_neg hplus, if_pos hcode, ih,
        decoded_code hplus hcode]
      exact (List.append_cons _ _ _).symm
  | case4 c hplus a b rest hcode ih =>
      rw [List.append_cons, StringUtil.urlDecodeLoop, if_neg hplus, if_neg hcode, ih,
        getD_map_concat, decoded, if_neg hplus, if_neg hcode, ← List.append_cons]
  | case5 c hplus rest hshort ih =>
      -- fewer than two bytes are left, and none of the look-ahead is read
      have hloop : StringUtil.urlDecodeLoop spaceAsPlus before ss (c :: rest) =
          StringUtil.urlDecodeLoop spaceAsPlus (before ++ [c]) (ss.map (· ++ [c])) rest := by
        rw [StringUtil.urlDecodeLoop.eq_def]
        simp only [if_neg hplus]
      rw [List.append_cons, hloop, ih, getD_map_concat,
        decoded_plain hplus fun a b rest' hrest => (hshort a b rest' hrest).elim,
        ← List.append_cons]

theorem urlEncodeWith_eq (str : List UInt8) :
    StringUtil.urlEncodeWith spaceAsPlus str = str.flatMap (byteCode spaceAsPlus) :=
  urlEncodeLoop_eq str [] none

theorem urlDecodeWith_eq (str : List UInt8) :
    StringUtil.urlDecodeWith spaceAsPlus str = decoded spaceAsPlus str :=
  urlDecodeLoop_eq str [] none

/-! ## Round trip -/

/-- Bytes that stand for themselves. -/
theorem decoded_cons {c : UInt8} (hplus : c ≠ '+') (hpercent : c ≠ '%') (rest : List UInt8) :
    decoded spaceAsPlus (c :: rest) = c :: decoded spaceAsPlus rest := by
  refine decoded_plain ?_ ?_
  · simp [hplus]
  · intro a b rest' _
    simp [hpercent]

/-- The two tables agree: a byte that stays is no `+` and no `%`, and the digits of a code are read
as the byte. -/
theorem tables_agree : ∀ c : UInt8,
    (charIsUnreserved c = true → c ≠ '+' ∧ c ≠ '%') ∧
    isxdigit (hexdigit (c >>> 4)) = true ∧ isxdigit (hexdigit (c &&& 0xF)) = true ∧
    hexByte (hexdigit (c >>> 4)) (hexdigit (c &&& 0xF)) = c :=
  forall_byte (by decide +kernel)

theorem decoded_byteCode (c : UInt8) (rest : List UInt8) :
    decoded spaceAsPlus (byteCode spaceAsPlus c ++ rest) = c :: decoded spaceAsPlus rest := by
  obtain ⟨hplain, hhigh, hlow, hvalue⟩ := tables_agree c
  unfold byteCode
  by_cases hfree : charIsUnreserved c = true
  · rw [if_pos hfree]
    exact decoded_cons (hplain hfree).1 (hplain hfree).2 rest
  · rw [if_neg hfree]
    by_cases hspace : (c = ' ' && spaceAsPlus) = true
    · obtain ⟨hc, rfl⟩ := Bool.and_eq_true_iff.mp hspace
      rw [if_pos hspace, of_decide_eq_true hc]
      exact decoded_space rfl rest
    · rw [if_neg hspace]
      show decoded spaceAsPlus
        (('%' : UInt8) :: hexdigit (c >>> 4) :: hexdigit (c &&& 0xF) :: rest) = _
      have hcode : (('%' : UInt8) = '%' && isxdigit (hexdigit (c >>> 4)) &&
          isxdigit (hexdigit (c &&& 0xF))) = true := by rw [hhigh, hlow]; rfl
      have hplus : ¬(('%' : UInt8) = '+' && spaceAsPlus) = true := Bool.false_ne_true
      rw [decoded_code hplus hcode, hvalue]

theorem decoded_flatMap (str : List UInt8) :
    decoded spaceAsPlus (str.flatMap (byteCode spaceAsPlus)) = str := by
  induction str with
  | nil => rw [List.flatMap_nil, decoded]
  | cons c rest ih => rw [List.flatMap_cons, decoded_byteCode, ih]

/-- What a code is made of. -/
theorem mem_byteCode {c x : UInt8} (h : x ∈ byteCode spaceAsPlus c) :
    charIsUnreserved x = true ∨ x = '%' ∨ isxdigit x = true ∨ spaceAsPlus = true ∧ x = '+' := by
  obtain ⟨-, hhigh, hlow, -⟩ := tables_agree c
  unfold byteCode at h
  split at h
  · rename_i hfree
    rw [List.mem_singleton.mp h]
    exact .inl hfree
  · split at h
    · rename_i hspace
      exact .inr (.inr (.inr ⟨(Bool.and_eq_true_iff.mp hspace).2, List.mem_singleton.mp h⟩))
    · simp only [List.mem_cons, List.not_mem_nil, or_false] at h
      rcases h with rfl | rfl | rfl
      · exact .inr (.inl rfl)
      · exact .inr (.inr (.inl hhigh))
      · exact .inr (.inr (.inl hlow))

/-- `UrlDecode` inverts `UrlEncode` on every string, and what `UrlEncode` prints is unreserved
characters, `%`, hexadecimal digits and, for spaces where they become one, `+`. -/
theorem urlDecodeWith_urlEncodeWith (spaceAsPlus : Bool) (str : List UInt8) :
    StringUtil.urlDecodeWith spaceAsPlus (StringUtil.urlEncodeWith spaceAsPlus str) = str ∧
    ∀ x ∈ StringUtil.urlEncodeWith spaceAsPlus str,
      charIsUnreserved x = true ∨ x = '%' ∨ isxdigit x = true ∨ spaceAsPlus = true ∧ x = '+' := by
  rw [urlDecodeWith_eq, urlEncodeWith_eq]
  refine ⟨decoded_flatMap str, ?_⟩
  intro x hx
  obtain ⟨c, -, hc⟩ := List.mem_flatMap.mp hx
  exact mem_byteCode hc

end Gxh.Http
