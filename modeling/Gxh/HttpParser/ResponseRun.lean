import Mathlib.Data.Bool.AllAny
import Gxh.Lib.Decimal
import Gxh.HttpParser.HeaderLine

/-!
# Reading a response

The parts of a response in the form of `Reads`: the status line, the `content-length` line, and
the empty line with the body behind it.
-/

namespace Gxh.HttpParser

variable {σ : Type} {settings : Settings σ} {p : Parser} {u : σ} {ch : UInt8} {l : List UInt8}
variable {field value : List UInt8 → σ → σ}

/-! ## The length of the body -/

/-- The parser after `content-length: n`. -/
def Parser.withLength (p : Parser) (n : Nat) : Parser :=
  { p with content_length := n, flags := { p.flags with F_CONTENTLENGTH := true } }

theorem isNum_digit : ∀ d < 10, isNum (digit d) = true ∧ (digit d - '0').toNat = d := by decide

/-- The first digit. -/
theorem switch_firstDigit (hs : p.state = .s_header_value_discard_ws)
    (hst : p.header_state = .h_content_length) (hflag : p.flags.F_CONTENTLENGTH = false)
    {d : Nat} (hd : d < 10) (settings : Settings σ) (u : σ) :
    ∃ p', p'.core = (p.core.withLength d).put .s_header_value p.nread ∧
      p'.header_state = .h_content_length_num ∧ p'.content_length = d ∧
      switch settings (.between p u) (digit d) = .next (.inside p' u .header_value [] none) := by
  obtain ⟨hnum, hvalue⟩ := isNum_digit d hd
  have hother : ¬ (digit d = ' ' ∨ digit d = 9) ∧ digit d ≠ CR ∧ digit d ≠ LF := by
    revert d
    decide
  have hswitch : switch settings (.between p u) (digit d) =
      headerValueStart (.between p u) (digit d) := by
    unfold switch
    simp only [Exec.between, hs, headerValueDiscardWs, hother.1, hother.2.1, hother.2.2, if_false]
  rw [hswitch, headerValueStart]
  dsimp only
  rw [Exec.setMark_between]
  have hstate : (((Exec.inside p u .header_value [] none).goto .s_header_value).modify
      fun p => { p with index := 0 }).parser.header_state = .h_content_length := hst
  have hflag' : (((Exec.inside p u .header_value [] none).goto .s_header_value).modify
      fun p => { p with index := 0 }).parser.flags.F_CONTENTLENGTH = false := hflag
  simp only [hstate, hnum, hflag', Bool.not_true, Bool.false_eq_true, if_false]
  refine ⟨_, ?_, ?_, ?_, rfl⟩
  · rw [hvalue]
    rfl
  · rfl
  · exact hvalue

/-- The digits so far make `n`: `p₀` is the parser before the first one. -/
structure Digits (p₀ : Parser) (n : Nat) (p : Parser) : Prop where
  core : p.core = (p₀.core.withLength n).put .s_header_value p.nread
  header_state : p.header_state = .h_content_length_num
  nread : p.nread ≤ maxHeaderSize

/-- A further digit. -/
theorem reads_digit {p₀ : Parser} {scan : Option Nat} {n d : Nat} (h : Digits p₀ n p)
    (hstrict : p₀.lenient_http_headers = false) (hsmall : n < 2 ^ 32) (hd : d < 10)
    (settings : Settings σ) (u : σ) (l : List UInt8) :
    Reads settings (.inside p u .header_value l scan) [digit d]
      (scan = none → p.nread + 1 ≤ maxHeaderSize) fun e' =>
        ∃ p' k, Digits p₀ (n * 10 + d) p' ∧
          headRead p'.nread (some k) = headRead p.nread scan + 1 ∧
          e' = .inside p' u .header_value (l ++ [digit d]) (some k) := by
  obtain ⟨hnum, hvalue⟩ := isNum_digit d hd
  have hother : digit d ≠ CR ∧ digit d ≠ LF ∧ digit d ≠ ' ' ∧ isHeaderChar (digit d) = true := by
    revert d
    decide
  obtain ⟨hCR, hLF, hblank, hchar⟩ := hother
  have hs : p.state = .s_header_value := congrArg Parser.state h.core
  have hlenient : p.lenient_http_headers = false :=
    (congrArg Parser.lenient_http_headers h.core).trans hstrict
  have hlength : p.content_length = n := congrArg Parser.content_length h.core
  have hroom : ¬ (ULLONG_MAX - 10) / 10 < p.content_length := by
    rw [hlength]
    unfold ULLONG_MAX
    omega
  refine (Reads.looping (c := True) (by rw [hs]; rfl) h.nread ?_ ?_).conseq (true_and _).to_iff
    fun _ _ h => h
  · intro q k hq hle _
    refine ⟨.inside { p.put p.state q with content_length := n * 10 + d } u .header_value l
      (some (k.getD 0)), ?_, { p.put p.state q with content_length := n * 10 + d },
      k.getD 0, ⟨?_, h.header_state, hle⟩, hq, Exec.inside_advance _⟩
    · have hnumber : valueChar (digit d) (lower (digit d)) (p.put p.state q) =
          .ok { p.put p.state q with content_length := n * 10 + d } := by
        have hroom' : ¬ (ULLONG_MAX - 10) / 10 < (p.put p.state q).content_length := hroom
        unfold valueChar
        simp only [Parser.put_header_state, h.header_state, contentLengthNum, hblank, hnum, hroom',
          if_false, Bool.not_true, Bool.false_eq_true, hvalue]
        rw [show (p.put p.state q).content_length = n from hlength, ← h.header_state]
      refine (switch_valueChar hs hlenient hCR hLF settings u l scan q k).trans ?_
      rw [if_pos hchar, hnumber]
    · show { p.core with state := p.state, nread := q, content_length := n * 10 + d } = _
      rw [h.core, hs]
      rfl
  · intro q k _ _ hnot
    exact absurd trivial hnot

/-- The number of bytes of the body. The loop counts its bytes only when it ends, so that room
for the digits is enough here but not needed. -/
theorem reads_number (hs : p.state = .s_header_value_discard_ws)
    (hst : p.header_state = .h_content_length) (hflag : p.flags.F_CONTENTLENGTH = false)
    (hstrict : p.lenient_http_headers = false) (hn : p.nread ≤ maxHeaderSize) {n : Nat}
    (hsmall : n < 2 ^ 32) (settings : Settings σ) (u : σ) :
    ∃ c : Prop, (p.nread + (decimal n).length ≤ maxHeaderSize → c) ∧
      Reads settings (.between p u) (decimal n) c fun e' =>
        ∃ p' k, Digits p n p' ∧ headRead p'.nread k = p.nread + (decimal n).length ∧
          (k = none ↔ n < 10) ∧ e' = .inside p' u .header_value (decimal n) k := by
  induction n using decimal_induction with
  | one n hlt =>
      obtain ⟨p', hcore, hst', -, hswitch⟩ := switch_firstDigit
        (p := p.put p.state (p.nread + 1)) hs hst hflag hlt settings u
      have hnread : p'.nread = p.nread + 1 := congrArg Parser.nread hcore
      rw [decimal_of_lt hlt]
      refine ⟨p.nread + 1 ≤ maxHeaderSize, fun h => h, ?_⟩
      refine (Reads.taken (P := fun e' => e' = .inside p' u .header_value [digit n] none)
        (by rw [hs]; rfl) hn hswitch (Exec.inside_advance _)).conseq (.refl _) ?_
      rintro hroom _ rfl
      refine ⟨p', none, ⟨?_, hst', by omega⟩, ?_, ⟨fun _ => hlt, fun _ => rfl⟩, rfl⟩
      · rw [hcore, hnread]
        rfl
      · rw [hnread]
        rfl
  | more n hge ih =>
      have hmod : n % 10 < 10 := Nat.mod_lt _ (by decide)
      have hone : n / 10 < 10 → (decimal (n / 10)).length = 1 := by
        intro hlt
        rw [decimal_of_lt hlt]
        rfl
      obtain ⟨c, hc, hread⟩ := ih (by omega)
      rw [decimal_of_le hge, List.length_append, List.length_singleton]
      refine ⟨c ∧ (n / 10 < 10 → p.nread + 2 ≤ maxHeaderSize), ?_, hread.append ?_⟩
      · intro hroom
        exact ⟨hc (by omega), fun hlt => by have := hone hlt; omega⟩
      · rintro - _ ⟨p', k, hdigits, hcount, hnone, rfl⟩
        refine (reads_digit hdigits hstrict (by omega) hmod settings u _).conseq ?_ ?_
        · -- the second digit enters the loop
          rw [hnone]
          constructor
          · intro hroom hlt
            have hk := hnone.mpr hlt
            have := hone hlt
            have := hroom hlt
            rw [hk, headRead, Option.getD_none] at hcount
            omega
          · intro hroom hlt
            have hk := hnone.mpr hlt
            have := hone hlt
            have := hroom hlt
            rw [hk, headRead, Option.getD_none] at hcount
            omega
        · rintro - _ ⟨p'', k', hdigits', hcount', rfl⟩
          refine ⟨p'', some k', ?_, ?_, ?_, rfl⟩
          · rwa [show n / 10 * 10 + n % 10 = n by omega] at hdigits'
          · rw [hcount', hcount, Nat.add_assoc]
          · exact ⟨fun h => (by cases h), fun h => absurd h (by omega)⟩

/-- A name is matched by `header_state` and `index` alone. -/
theorem fieldChar_word {q : Parser} (hst : p.header_state = q.header_state)
    (hindex : p.index = q.index) (ch c : UInt8) :
    (fieldChar ch c p).header_state = (fieldChar ch c q).header_state ∧
      (fieldChar ch c p).index = (fieldChar ch c q).index := by
  unfold fieldChar matchWord
  rw [hst, hindex]
  dsimp only
  split <;> (try split_ifs) <;> simp_all

theorem fieldWord_word {q : Parser} (hst : p.header_state = q.header_state)
    (hindex : p.index = q.index) (cs : List UInt8) :
    (fieldWord p cs).header_state = (fieldWord q cs).header_state := by
  induction cs generalizing p q with
  | nil => exact hst
  | cons c cs ih =>
      obtain ⟨hst', hindex'⟩ := fieldChar_word hst hindex c (token c)
      exact ih hst' hindex'

theorem named_length (p : Parser) :
    (p.named (bytes "content-length")).header_state = .h_content_length := by
  have hinit : ((Parser.init .HTTP_RESPONSE).named (bytes "content-length")).header_state =
      .h_content_length := by decide
  rw [show bytes "content-length" = ('c' : UInt8) :: bytes "ontent-length" by decide] at hinit ⊢
  rw [Parser.named] at hinit ⊢
  rw [← hinit]
  apply fieldWord_word
  · rfl
  · rfl

/-- A number and its line end. -/
theorem reads_length (hset : settings.Listens field value) {n : Nat}
    (hs : p.state = .s_header_value_discard_ws) (hst : p.header_state = .h_content_length)
    (hflag : p.flags.F_CONTENTLENGTH = false) (hstrict : p.lenient_http_headers = false)
    (hn : p.nread ≤ maxHeaderSize) (hsmall : n < 2 ^ 32)
    (hroom : p.nread + ((decimal n).length + 2) < 2 ^ 32) :
    Reads settings (.between p u) (decimal n ++ [CR, LF])
      (p.nread + ((decimal n).length + 2) ≤ maxHeaderSize) fun e' =>
        ∃ p', p'.core = (p.core.withLength n).put .s_header_field_start
            (p.nread + ((decimal n).length + 2)) ∧
          LineStart settings e' p' (value (decimal n) u) := by
  obtain ⟨c, hc, hnumber⟩ := reads_number hs hst hflag hstrict hn hsmall settings u
  have hCR : c → ∀ e', (∃ p' k, Digits p n p' ∧
      headRead p'.nread k = p.nread + (decimal n).length ∧
      (k = none ↔ n < 10) ∧ e' = Exec.inside p' u .header_value (decimal n) k) →
      Reads settings e' [CR] (p.nread + (decimal n).length + 1 ≤ maxHeaderSize) fun e' =>
        ∃ p', Digits p n p' ∧ e' = .between (p'.put .s_header_almost_done
          (p.nread + (decimal n).length + 1)) (value (decimal n) u) := by
    rintro - _ ⟨p', k, hdigits, hcount, -, rfl⟩
    have hs' : p'.state = .s_header_value := congrArg Parser.state hdigits.core
    have hread := reads_valueEnd (u := u) (l := decimal n) hset hs' hdigits.nread
      (show headRead p'.nread k + 1 < 2 ^ 32 by omega)
    rw [hcount] at hread
    exact hread.conseq (.refl _) fun _ _ he => ⟨p', hdigits, he⟩
  have hLF : p.nread + (decimal n).length + 1 ≤ maxHeaderSize → ∀ e',
      (∃ p', Digits p n p' ∧ e' = Exec.between (p'.put .s_header_almost_done
        (p.nread + (decimal n).length + 1)) (value (decimal n) u)) →
      Reads settings e' [LF] (p.nread + ((decimal n).length + 2) ≤ maxHeaderSize) fun e' =>
        ∃ p', p'.core = (p.core.withLength n).put .s_header_field_start
            (p.nread + ((decimal n).length + 2)) ∧
          LineStart settings e' p' (value (decimal n) u) := by
    rintro hle _ ⟨p', hdigits, rfl⟩
    have hfinish : (p'.put .s_header_almost_done (p.nread + (decimal n).length + 1)).finishHeader =
        p'.put .s_header_almost_done (p.nread + (decimal n).length + 1) := by
      rw [finishHeader_put]
      unfold Parser.finishHeader
      rw [hdigits.header_state]
    have hread := reads_lineEnd rfl (congrArg Parser.core hfinish) hle settings
      (value (decimal n) u)
    rw [Parser.put_core, hdigits.core, Parser.put_nread, Parser.put_put, Parser.put_put] at hread
    exact hread
  have hall := (hnumber.append hCR).append fun hle e' he' => hLF hle.2 e' he'
  rw [List.append_assoc] at hall
  refine hall.conseq ?_ fun _ _ h => h
  exact ⟨fun h => h.2, fun h => ⟨⟨hc (by omega), by omega⟩, h⟩⟩

/-- The `content-length` line. -/
theorem reads_lengthLine (hset : settings.Listens field value) {n : Nat}
    (hs : p.state = .s_header_field_start) (hflag : p.flags.F_CONTENTLENGTH = false)
    (hstrict : p.lenient_http_headers = false) (hn : p.nread ≤ maxHeaderSize)
    (hsmall : n < 2 ^ 32) (hroom : p.nread + ((decimal n).length + 18) < 2 ^ 32) :
    Reads settings (.between p u)
      (bytes "content-length" ++ [(':' : UInt8)] ++ ([(' ' : UInt8)] ++ (decimal n ++ [CR, LF])))
      (p.nread + ((decimal n).length + 18) ≤ maxHeaderSize) fun e' =>
        ∃ p', p'.core = (p.core.withLength n).put .s_header_field_start
            (p.nread + ((decimal n).length + 18)) ∧
          LineStart settings e' p' (value (decimal n) (field (bytes "content-length") u)) := by
  have hlen : (bytes "content-length").length = 14 := by decide
  have hne : bytes "content-length" ≠ [] := by decide
  have htoken : ∀ c ∈ bytes "content-length", token c ≠ 0 := List.all_iff_forall_prop.mp (by decide)
  have hst := named_length p
  generalize bytes "content-length" = name at hlen hne htoken hst ⊢
  have hname := reads_fieldName (u := u) hset hne htoken hs hn (by omega)
  rw [hlen] at hname
  have hcore := named_core p name
  generalize p.named name = p₁ at hcore hst hname
  have hflag₁ : p₁.flags.F_CONTENTLENGTH = false :=
    (congrArg (fun p => p.flags.F_CONTENTLENGTH) hcore).trans hflag
  have hstrict₁ : p₁.lenient_http_headers = false :=
    (congrArg Parser.lenient_http_headers hcore).trans hstrict
  refine hname.seq ?_ ⟨fun h => h.2, fun h => ⟨by omega, h⟩⟩
  rintro hle _ rfl
  refine (reads_blanks (p := p₁.put .s_header_value_discard_ws (p.nread + (14 + 1)))
    (show ∀ c ∈ [(' ' : UInt8)], isBlank c = true from List.forall_mem_singleton.mpr rfl)
    rfl hle settings _).seq ?_
    ⟨fun h => h.2, fun h => ⟨?_, h⟩⟩
  · rintro hle' _ rfl
    have hread := reads_length (p := p₁.put .s_header_value_discard_ws (p.nread + 16)) hset
      (u := field name u) (n := n) rfl hst hflag₁ hstrict₁ hle' hsmall
      (by rw [Parser.put_nread]; omega)
    rw [Parser.put_core, hcore, Parser.put_nread, show p.nread + 16 + ((decimal n).length + 2) =
      p.nread + ((decimal n).length + 18) by omega] at hread
    exact hread
  · show p.nread + 15 + 1 ≤ maxHeaderSize
    omega

/-! ## The status line -/

theorem length_decimal_le (n : Nat) : (decimal n).length ≤ n + 1 := by
  induction n using decimal_induction with
  | one n hlt =>
      rw [decimal_of_lt hlt, List.length_singleton]
      omega
  | more n hge ih =>
      rw [decimal_of_le hge, List.length_append, List.length_singleton]
      omega

/-- A byte for which there is room, and that leads to `p'`. -/
theorem Reads.stepped {p' : Parser} (hs : p.state.parsingHeader = true)
    (hn : p.nread + 1 ≤ maxHeaderSize)
    (h : switch settings (.between (p.put p.state (p.nread + 1)) u) ch = .next (.between p' u)) :
    Reads settings (.between p u) [ch] True fun e' => e' = .between p' u :=
  .next ((turn_counted hs hn u _ ch).trans h) rfl

/-- A byte that is refused. -/
theorem Reads.refused {e' : Exec σ} {err : HttpErrno} {P : Exec σ → Prop}
    (hs : p.state.parsingHeader = true) (hn : p.nread + 1 ≤ maxHeaderSize) (herr : err ≠ .HPE_OK)
    (h : switch settings (.between (p.put p.state (p.nread + 1)) u) ch = e'.fail err) :
    Reads settings (.between p u) [ch] False P :=
  .fail ((turn_counted hs hn u _ ch).trans h) herr

/-- A number of more than one digit starts with two. -/
theorem decimal_two {n : Nat} (h : 10 ≤ n) :
    ∃ d < 10, ∃ d' < 10, ∃ rest, decimal n = digit d :: digit d' :: rest := by
  induction n using decimal_induction with
  | one n hlt => omega
  | more n hge ih =>
      have hmod : n % 10 < 10 := Nat.mod_lt _ (by decide)
      rw [decimal_of_le hge]
      by_cases hlt : n / 10 < 10
      · exact ⟨n / 10, hlt, n % 10, hmod, [], by rw [decimal_of_lt hlt]; rfl⟩
      · obtain ⟨d, hd, d', hd', rest, heq⟩ := ih (by omega)
        exact ⟨d, hd, d', hd', rest ++ [digit (n % 10)], by rw [heq]; rfl⟩

/-- A number of the version with the byte behind it: one digit is read, and then the byte has to
come. -/
theorem reads_versionNumber (s s₁ s₂ : State) (set : Nat → Parser → Parser) (sep : UInt8) {a : Nat}
    (hs : p.state = s) (hhead : s.parsingHeader = true) (hhead₁ : s₁.parsingHeader = true)
    (hn : p.nread + 2 ≤ maxHeaderSize)
    (hdigit : ∀ p ch, p.state = s →
      switch settings (.between p u) ch = versionDigit (.between p u) ch set s₁)
    (hsep : ∀ p ch, p.state = s₁ → switch settings (.between p u) ch =
      if ch ≠ sep then Exec.fail (.between p u) .HPE_INVALID_VERSION
      else .next ((Exec.between p u).goto s₂))
    (hset : ∀ v p s n, set v (p.put s n) = (set v p).put s n)
    (hnum : isNum sep = false) :
    Reads settings (.between p u) (decimal a ++ [sep]) (a < 10) fun e' =>
      e' = .between ((set a p).put s₂ (p.nread + 2)) u := by
  have hfirst : ∀ d < 10, Reads settings (.between p u) [digit d] True fun e' =>
      e' = .between ((set d p).put s₁ (p.nread + 1)) u := by
    intro d hd
    obtain ⟨hnum, hvalue⟩ := isNum_digit d hd
    refine Reads.stepped (by rw [hs]; exact hhead) (by omega) ?_
    rw [hdigit (p.put p.state (p.nread + 1)) _ hs]
    unfold versionDigit
    simp only [hnum, Bool.not_true, Bool.false_eq_true, if_false, hvalue]
    show Turn.next (Exec.between { set d (p.put p.state (p.nread + 1)) with state := s₁ } u) = _
    rw [hset]
    rfl
  by_cases ha : a < 10
  · have hlast : Reads settings (.between ((set a p).put s₁ (p.nread + 1)) u) [sep] True fun e' =>
        e' = .between ((set a p).put s₂ (p.nread + 2)) u := by
      refine Reads.stepped hhead₁ (by rw [Parser.put_nread]; omega) ?_
      exact (hsep (((set a p).put s₁ (p.nread + 1)).put s₁ (p.nread + 1 + 1)) sep rfl).trans
        (if_neg (not_not.mpr rfl))
    rw [decimal_of_lt ha]
    refine (hfirst a ha).seq (fun _ _ he => he ▸ hlast) ?_
    exact ⟨fun _ => ha, fun _ => ⟨trivial, trivial⟩⟩
  · -- the second digit stands where the byte should
    obtain ⟨d, hd, d', hd', rest, heq⟩ := decimal_two (Nat.le_of_not_lt ha)
    have hne : digit d' ≠ sep := by
      intro h
      rw [← h, (isNum_digit d' hd').1] at hnum
      cases hnum
    have hwrong : Reads settings (.between ((set d p).put s₁ (p.nread + 1)) u) [digit d'] False
        fun e' => e' = .between ((set a p).put s₂ (p.nread + 2)) u := by
      have hturn := (hsep (((set d p).put s₁ (p.nread + 1)).put s₁ (p.nread + 1 + 1)) _ rfl).trans
        (if_pos hne)
      exact Reads.refused hhead₁ (by rw [Parser.put_nread]; omega) (by decide) hturn
    rw [heq]
    exact ((hfirst d hd).seq (fun _ _ he => he ▸ hwrong.stop (rest ++ [sep]))
      ⟨fun h => h.2.elim, fun h => absurd h ha⟩)

/-- The status code: a fourth digit makes it too large, leading zeros aside. -/
theorem reads_statusCode (hs : p.state = .s_res_first_status_code)
    (hn : p.nread + 1001 ≤ maxHeaderSize) (n : Nat) (settings : Settings σ) (u : σ) :
    Reads settings (.between p u) (decimal n) (n < 1000) fun e' =>
      e' = .between ({ p with status_code := n }.put .s_res_status_code
        (p.nread + (decimal n).length)) u := by
  induction n using decimal_induction with
  | one n hlt =>
      obtain ⟨hnum, hvalue⟩ := isNum_digit n hlt
      rw [decimal_of_lt hlt]
      refine (Reads.stepped (by rw [hs]; rfl) (by omega) ?_).conseq
        ⟨fun _ => by omega, fun _ => trivial⟩ fun _ _ he => he
      unfold switch
      simp only [Exec.between, Parser.put_state, hs, resFirstStatusCode, hnum, Bool.not_true,
        Bool.false_eq_true, if_false, hvalue]
      rfl
  | more n hge ih =>
      obtain ⟨hnum, hvalue⟩ := isNum_digit (n % 10) (Nat.mod_lt _ (by decide))
      have hlen := length_decimal_le (n / 10)
      rw [decimal_of_le hge, List.length_append, List.length_singleton]
      refine ih.seq (d := n < 1000) ?_ ⟨fun h => h.2, fun h => ⟨by omega, h⟩⟩
      rintro hsmall _ rfl
      have hswitch : ∀ q, switch settings (.between ({ p with status_code := n / 10 }.put
          .s_res_status_code q) u) (digit (n % 10)) =
          if 999 < n then Exec.fail (.between ({ p with status_code := n }.put
            .s_res_status_code q) u) .HPE_INVALID_STATUS
          else .next (.between ({ p with status_code := n }.put .s_res_status_code q) u) := by
        intro q
        unfold switch
        simp only [Exec.between, Parser.put_state, resStatusCode, hnum, Bool.not_true,
          Bool.false_eq_true, if_false, hvalue, Exec.modify]
        have hsum : ({ p with status_code := n / 10 }.put .s_res_status_code q).status_code * 10 +
            n % 10 = n := by
          show n / 10 * 10 + n % 10 = n
          omega
        rw [hsum]
        rfl
      by_cases hlt : n < 1000
      · refine (Reads.stepped (by rfl) ?_ ((hswitch _).trans (if_neg (by omega)))).conseq
          ⟨fun _ => hlt, fun _ => trivial⟩ fun _ _ he => he
        show p.nread + (decimal (n / 10)).length + 1 ≤ maxHeaderSize
        omega
      · have hturn := (hswitch (p.nread + (decimal (n / 10)).length + 1)).trans
          (if_pos (by omega))
        refine (Reads.refused (by rfl) ?_ (by decide) hturn).conseq
          ⟨False.elim, fun h => hlt h⟩ fun _ _ he => he
        show p.nread + (decimal (n / 10)).length + 1 ≤ maxHeaderSize
        omega

/-- The reason phrase, up to the end of the line. -/
theorem reads_reasonRest {cs : List UInt8} (hcs : ∀ c ∈ cs, c ≠ CR ∧ c ≠ LF)
    (hs : p.state = .s_res_status) (hn : p.nread ≤ maxHeaderSize) (settings : Settings σ) (u : σ)
    (l : List UInt8) :
    Reads settings (.inside p u .status l none) cs (p.nread + cs.length ≤ maxHeaderSize) fun e' =>
      e' = .inside (p.put .s_res_status (p.nread + cs.length)) u .status (l ++ cs) none := by
  induction cs generalizing p l with
  | nil =>
      refine (Reads.nil rfl).conseq ⟨fun _ => hn, fun _ => trivial⟩ ?_
      rintro - _ rfl
      rw [List.append_nil, ← hs]
      rfl
  | cons c cs ih =>
      obtain ⟨hCR, hLF⟩ := hcs c List.mem_cons_self
      have hswitch : switch settings (.inside (p.put p.state (p.nread + 1)) u .status l none) c =
          .next (.inside (p.put .s_res_status (p.nread + 1)) u .status l none) := by
        unfold switch
        simp only [Exec.inside, Parser.put_state, hs, resStatus, hCR, hLF, if_false]
      rw [List.length_cons, show p.nread + (cs.length + 1) = p.nread + 1 + cs.length by omega]
      refine (Reads.taken (P := fun e' => e' = .inside (p.put .s_res_status (p.nread + 1)) u .status
        (l ++ [c]) none) (by rw [hs]; rfl) hn hswitch (Exec.inside_advance c)).seq ?_
        (d := p.nread + 1 + cs.length ≤ maxHeaderSize) ⟨fun h => h.2, fun h => ⟨by omega, h⟩⟩
      rintro hroom _ rfl
      have hread := @ih (p.put .s_res_status (p.nread + 1))
        (fun x hx => hcs x (List.mem_cons_of_mem _ hx)) rfl hroom (l ++ [c])
      rw [List.append_assoc] at hread
      exact hread

/-- The reason phrase and the end of the status line. -/
theorem reads_reason {status : Parser → σ → σ} {text : List UInt8} (hne : text ≠ [])
    (htext : ∀ c ∈ text, c ≠ CR ∧ c ≠ LF)
    (hset : ∀ p l u, settings.onData .status p l u = (status p u, 0))
    (hs : p.state = .s_res_status_start) (hn : p.nread ≤ maxHeaderSize) :
    Reads settings (.between p u) (text ++ [CR, LF]) (p.nread + (text.length + 2) ≤ maxHeaderSize)
      fun e' => ∃ p' q, p'.core = p.core.put .s_header_field_start (p.nread + (text.length + 2)) ∧
        q.status_code = p.status_code ∧ e' = .between p' (status q u) := by
  obtain ⟨c, cs, rfl⟩ := List.exists_cons_of_ne_nil hne
  obtain ⟨hCR, hLF⟩ := htext c List.mem_cons_self
  generalize hp₁ : { p with index := 0 } = p₁
  have hcore : p₁.core = p.core := by rw [← hp₁]; rfl
  have hcode : p₁.status_code = p.status_code := by rw [← hp₁]
  have hfirst : Reads settings (.between p u) [c] (p.nread + 1 ≤ maxHeaderSize) fun e' =>
      e' = .inside (p₁.put .s_res_status (p.nread + 1)) u .status [c] none := by
    have hswitch : switch settings (.between (p.put p.state (p.nread + 1)) u) c =
        .next (.inside (p₁.put .s_res_status (p.nread + 1)) u .status [] none) := by
      have hstart : switch settings (.between (p.put p.state (p.nread + 1)) u) c =
          resStatusStart settings (.between (p.put p.state (p.nread + 1)) u) c := by
        unfold switch
        simp only [Exec.between, Parser.put_state, hs]
      rw [hstart, resStatusStart, Exec.setMark_between, if_neg (not_or.mpr ⟨hCR, hLF⟩), ← hp₁]
      rfl
    exact Reads.taken (by rw [hs]; rfl) hn hswitch (Exec.inside_advance c)
  have hrest : p.nread + 1 ≤ maxHeaderSize → ∀ e',
      e' = Exec.inside (p₁.put .s_res_status (p.nread + 1)) u .status [c] none →
      Reads settings e' cs (p.nread + 1 + cs.length ≤ maxHeaderSize) fun e' =>
        e' = .inside (p₁.put .s_res_status (p.nread + 1 + cs.length)) u .status (c :: cs) none := by
    rintro hroom _ rfl
    exact reads_reasonRest (p := p₁.put .s_res_status (p.nread + 1))
      (fun x hx => htext x (List.mem_cons_of_mem _ hx)) rfl hroom settings u [c]
  have hend : p.nread + 1 + cs.length ≤ maxHeaderSize → ∀ e',
      e' = Exec.inside (p₁.put .s_res_status (p.nread + 1 + cs.length)) u .status (c :: cs) none →
      Reads settings e' [CR] (p.nread + 1 + cs.length + 1 ≤ maxHeaderSize) fun e' =>
        ∃ q, q.status_code = p.status_code ∧ e' = .between (p₁.put .s_res_line_almost_done
          (p.nread + 1 + cs.length + 1)) (status q u) := by
    rintro hroom _ rfl
    have hcall := callbackData_inside (p₁.put .s_res_line_almost_done (p.nread + 1 + cs.length + 1))
      u .status (c :: cs) [] 1 Turn.next (congrArg Prod.snd (hset _ _ _))
    rw [hset] at hcall
    exact Reads.taken (by rfl) hroom hcall
      ⟨p₁.put .s_res_line_almost_done (p.nread + 1 + cs.length + 1), hcode, rfl⟩
  have hLF : p.nread + 1 + cs.length + 1 ≤ maxHeaderSize → ∀ e',
      (∃ q, q.status_code = p.status_code ∧ e' = Exec.between (p₁.put .s_res_line_almost_done
        (p.nread + 1 + cs.length + 1)) (status q u)) →
      Reads settings e' [LF] (p.nread + 1 + cs.length + 2 ≤ maxHeaderSize) fun e' =>
        ∃ p' q, p'.core = p.core.put .s_header_field_start (p.nread + 1 + cs.length + 2) ∧
          q.status_code = p.status_code ∧ e' = .between p' (status q u) := by
    rintro hroom _ ⟨q, hq, rfl⟩
    refine (Reads.move (s := .s_header_field_start) rfl hroom rfl).conseq (.refl _) ?_
    rintro - _ rfl
    exact ⟨_, q, by rw [Parser.put_put, Parser.put_core, hcore]; rfl, hq, rfl⟩
  have hall := ((hfirst.append hrest).append fun h => hend h.2).append fun h => hLF h.2
  rw [show c :: cs ++ [CR, LF] = [c] ++ cs ++ [CR] ++ [LF] by simp, List.length_cons,
    show p.nread + (cs.length + 1 + 2) = p.nread + 1 + cs.length + 2 by omega]
  refine hall.conseq ?_ fun _ _ h => h
  exact ⟨fun h => h.2, fun h => ⟨⟨⟨by omega, by omega⟩, by omega⟩, h⟩⟩

/-- The parser after the status line of a response, less its place in the message. -/
def Parser.ofStatus (a b n : Nat) : Parser :=
  { Parser.init .HTTP_RESPONSE with
    content_length := ULLONG_MAX
    http_major := a
    http_minor := b
    status_code := n }

theorem reads_protocol (hset : ∀ p u, settings.onNotify .message_begin p u = (u, 0)) :
    Reads settings (.between (.init .HTTP_RESPONSE) u) (bytes "HTTP/") True fun e' =>
      e' = .between ((Parser.ofStatus 0 0 0).put .s_res_http_major 5) u := by
  have hH : Reads settings (.between (.init .HTTP_RESPONSE) u) [('H' : UInt8)] True fun e' =>
      e' = .between ((Parser.ofStatus 0 0 0).put .s_res_H 1) u := by
    refine Reads.stepped rfl (by decide) ?_
    show Exec.callbackNotify (.between ((Parser.ofStatus 0 0 0).put .s_res_H 1) u) settings
      .message_begin 1 .next = _
    unfold Exec.callbackNotify
    rw [hset]
    rfl
  have hrest : Reads settings (.between ((Parser.ofStatus 0 0 0).put .s_res_H 1) u) (bytes "TTP/")
      True fun e' => e' = .between ((Parser.ofStatus 0 0 0).put .s_res_http_major 5) u :=
    ⟨fun _ => ⟨_, rfl, fun _ _ => rfl⟩, fun h => absurd trivial h⟩
  exact hH.seq (fun _ _ he => he ▸ hrest) (and_self_iff)

/-- Everything of the status line up to the reason phrase. -/
theorem reads_statusStart (hset : ∀ p u, settings.onNotify .message_begin p u = (u, 0))
    (a b n : Nat) :
    Reads settings (.between (.init .HTTP_RESPONSE) u)
      (bytes "HTTP/" ++ (decimal a ++ [('.' : UInt8)]) ++ (decimal b ++ [(' ' : UInt8)]) ++
        (decimal n ++ [(' ' : UInt8)]))
      (((True ∧ a < 10) ∧ b < 10) ∧ n < 1000) fun e' =>
        e' = .between ((Parser.ofStatus a b n).put .s_res_status_start
          (10 + (decimal n).length)) u := by
  have hmajor : True → ∀ e', e' = Exec.between ((Parser.ofStatus 0 0 0).put .s_res_http_major 5) u →
      Reads settings e' (decimal a ++ [('.' : UInt8)]) (a < 10) fun e' =>
        e' = .between ((Parser.ofStatus a 0 0).put .s_res_http_minor 7) u := by
    rintro - _ rfl
    refine reads_versionNumber .s_res_http_major .s_res_http_dot .s_res_http_minor
      (fun v p => { p with http_major := v }) '.' rfl rfl rfl
      (show 5 + 2 ≤ maxHeaderSize by decide) ?_ ?_ ?_ (by decide)
    · intro p ch hs
      unfold switch
      simp only [Exec.between, hs]
    · intro p ch hs
      unfold switch
      simp only [Exec.between, hs]
    · exact fun _ _ _ _ => rfl
  have hminor : ∀ e', e' = Exec.between ((Parser.ofStatus a 0 0).put .s_res_http_minor 7) u →
      Reads settings e' (decimal b ++ [(' ' : UInt8)]) (b < 10) fun e' =>
        e' = .between ((Parser.ofStatus a b 0).put .s_res_first_status_code 9) u := by
    rintro _ rfl
    refine reads_versionNumber .s_res_http_minor .s_res_http_end .s_res_first_status_code
      (fun v p => { p with http_minor := v }) ' ' rfl rfl rfl
      (show 7 + 2 ≤ maxHeaderSize by decide) ?_ ?_ ?_ (by decide)
    · intro p ch hs
      unfold switch
      simp only [Exec.between, hs]
    · intro p ch hs
      unfold switch
      simp only [Exec.between, hs]
    · exact fun _ _ _ _ => rfl
  have hcode : ∀ e', e' = Exec.between ((Parser.ofStatus a b 0).put .s_res_first_status_code 9) u →
      Reads settings e' (decimal n ++ [(' ' : UInt8)]) (n < 1000) fun e' =>
        e' = .between ((Parser.ofStatus a b n).put .s_res_status_start
          (10 + (decimal n).length)) u := by
    rintro _ rfl
    have hdigits := reads_statusCode
      (p := (Parser.ofStatus a b 0).put .s_res_first_status_code 9) rfl
      (show 9 + 1001 ≤ maxHeaderSize by decide) n settings u
    refine hdigits.seq (d := True) ?_ (and_true _).to_iff
    rintro hlt _ rfl
    have hlen := length_decimal_le n
    have hroom : 9 + (decimal n).length + 1 ≤ maxHeaderSize := by
      unfold maxHeaderSize
      omega
    rw [show 10 + (decimal n).length = 9 + (decimal n).length + 1 by omega]
    exact Reads.stepped (p := (Parser.ofStatus a b n).put .s_res_status_code
      (9 + (decimal n).length)) rfl hroom rfl
  exact (((reads_protocol hset).append hmajor).append fun _ => hminor).append fun _ => hcode

/-- The status line. -/
theorem reads_statusLine {status : Parser → σ → σ} {text : List UInt8} (hne : text ≠ [])
    (htext : ∀ c ∈ text, c ≠ CR ∧ c ≠ LF)
    (hbegin : ∀ p u, settings.onNotify .message_begin p u = (u, 0))
    (hset : ∀ p l u, settings.onData .status p l u = (status p u, 0)) (a b n : Nat) :
    Reads settings (.between (.init .HTTP_RESPONSE) u)
      (bytes "HTTP/" ++ (decimal a ++ [('.' : UInt8)]) ++ (decimal b ++ [(' ' : UInt8)]) ++
        (decimal n ++ [(' ' : UInt8)]) ++ (text ++ [CR, LF]))
      ((a < 10 ∧ b < 10 ∧ n < 1000) ∧ 12 + (decimal n).length + text.length ≤ maxHeaderSize)
      fun e' => ∃ p' q, p'.core = (Parser.ofStatus a b n).put .s_header_field_start
          (12 + (decimal n).length + text.length) ∧
        q.status_code = n ∧ e' = .between p' (status q u) := by
  refine (reads_statusStart hbegin a b n).seq ?_ ?_ (d :=
    12 + (decimal n).length + text.length ≤ maxHeaderSize)
  · rintro ⟨-, hlt⟩ _ rfl
    have hlen := length_decimal_le n
    have hread := reads_reason (u := u) (p := (Parser.ofStatus a b n).put .s_res_status_start
      (10 + (decimal n).length)) hne htext hset rfl (by
        show 10 + (decimal n).length ≤ maxHeaderSize
        unfold maxHeaderSize
        omega)
    rw [Parser.put_nread, show 10 + (decimal n).length + (text.length + 2) =
      12 + (decimal n).length + text.length by omega] at hread
    exact hread
  · rw [true_and, and_assoc, and_assoc, and_assoc, and_assoc]

/-! ## The empty line and the body -/

/-- A response that is neither chunked nor without a body by its status, with its length in `m`. -/
structure Parser.Plain (p : Parser) (m : Nat) : Prop where
  type : p.type = .HTTP_RESPONSE
  method : p.method = .DELETE
  errno : p.http_errno = .HPE_OK
  trailing : p.flags.F_TRAILING = false
  chunked : p.flags.F_CHUNKED = false
  skipbody : p.flags.F_SKIPBODY = false
  body : ¬ (p.status_code / 100 = 1 ∨ p.status_code = 204 ∨ p.status_code = 304)
  length : p.content_length = m

theorem Parser.Plain.of_core {m : Nat} (h : p.core.Plain m) : p.Plain m :=
  ⟨h.type, h.method, h.errno, h.trailing, h.chunked, h.skipbody, h.body, h.length⟩

/-- The empty line behind the headers: the body follows, of known length or up to the end of the
stream. -/
theorem reads_emptyLine {m : Nat} {u' : σ} (hp : p.Plain m) (hm : 0 < m)
    (hs : p.state = .s_header_field_start) (hn : p.nread ≤ maxHeaderSize)
    (hset : ∀ q, q.http_major = p.http_major → q.http_minor = p.http_minor →
      q.status_code = p.status_code → settings.onNotify .headers_complete q u = (u', 0)) :
    Reads settings (.between p u) [CR, LF] (p.nread + 2 ≤ maxHeaderSize) fun e' =>
      ∃ p', p'.state = (if m = ULLONG_MAX then .s_body_identity_eof else .s_body_identity) ∧
        p'.content_length = m ∧ p'.upgrade = false ∧ p'.http_errno = .HPE_OK ∧
        e' = .between p' u' := by
  have hCR : switch settings (.between (p.put p.state (p.nread + 1)) u) CR =
      .next (.between (p.put .s_headers_almost_done (p.nread + 1)) u) := by
    unfold switch
    rw [hs]
    rfl
  have hupgrade : p.upgrades = false := by
    unfold Parser.upgrades
    have h101 : p.status_code ≠ 101 := fun h => hp.body (.inl (by rw [h]))
    simp [hp.type, hp.method, h101]
  refine (Reads.move (by rw [hs]; rfl) hn hCR).seq (d := p.nread + 2 ≤ maxHeaderSize) ?_
    ⟨fun h => h.2, fun h => ⟨by omega, h⟩⟩
  rintro hroom _ rfl
  -- `on_headers_complete` sees the parser before the body
  generalize hq : { p.put .s_headers_done (p.nread + 2) with upgrade := false } = q
  have halmost : switch settings (.between (p.put .s_headers_almost_done (p.nread + 2)) u) LF =
      headersComplete settings (.between q u) fun e => headersDone settings e LF := by
    have htrailing : (p.put .s_headers_almost_done (p.nread + 2)).flags.F_TRAILING = false :=
      hp.trailing
    have hchunked : (p.put .s_headers_almost_done (p.nread + 2)).flags.F_CHUNKED = false :=
      hp.chunked
    have hupgrade' : (p.put .s_headers_done (p.nread + 2)).upgrades = false := hupgrade
    unfold switch
    simp only [Exec.between, Parser.put_state, headersAlmostDone, Exec.strictCheck, ne_eq,
      not_true_eq_false, decide_false, Bool.false_eq_true, if_false, htrailing, hchunked,
      Bool.false_and]
    rw [← hq, ← hupgrade']
    rfl
  have hcomplete : headersComplete settings (.between q u) (fun e => headersDone settings e LF) =
      headersDone settings (.between q u') LF := by
    have hcall := hset q (by rw [← hq]; rfl) (by rw [← hq]; rfl) (by rw [← hq]; rfl)
    unfold headersComplete
    simp only [Exec.between, hcall, if_true]
  have hdone : headersDone settings (.between q u') LF =
      .next (.between { q with
        nread := 0
        state := if m = ULLONG_MAX then .s_body_identity_eof else .s_body_identity } u') := by
    have hup : q.upgrade = false := by rw [← hq]
    have hskip : q.flags.F_SKIPBODY = false := by rw [← hq]; exact hp.skipbody
    have hchunked : q.flags.F_CHUNKED = false := by rw [← hq]; exact hp.chunked
    have hlength : q.content_length = m := by rw [← hq]; exact hp.length
    have htype : q.type = .HTTP_RESPONSE := by rw [← hq]; exact hp.type
    have hbody : ¬ (q.status_code / 100 = 1 ∨ q.status_code = 204 ∨ q.status_code = 304) := by
      rw [← hq]
      exact hp.body
    rw [not_or, not_or] at hbody
    have hm' : m ≠ 0 := by omega
    unfold headersDone
    simp only [Exec.strictCheck, ne_eq, not_true_eq_false, decide_false, Bool.false_eq_true,
      if_false, Exec.modify, Exec.between, hup, hskip, hchunked, hlength, Bool.false_and, hm']
    by_cases hmax : m = ULLONG_MAX
    · simp only [hmax, not_true_eq_false, if_false, if_true]
      rw [if_neg]
      · rfl
      · simp [Parser.messageNeedsEof, htype, hskip, hchunked, hbody]
    · simp only [hmax, not_false_eq_true, if_true, if_false]
      rfl
  refine (Reads.taken rfl hroom (halmost.trans (hcomplete.trans hdone)) ⟨_, rfl, ?_, ?_, ?_, rfl⟩)
  · rw [← hq]
    exact hp.length
  · rw [← hq]
    rfl
  · rw [← hq]
    exact hp.errno

/-- The bytes of a body of known length: the last one ends the message. -/
theorem parse_body {body : List UInt8 → σ → σ} {done : σ → σ}
    (hbody : ∀ p l u, settings.onData .body p l u = (body l u, 0))
    (hdone : ∀ p u, settings.onNotify .message_complete p u = (done u, 0)) {e : Exec σ}
    {bs : List UInt8} (hmark : e.setMark .body = .inside p u .body l none) (hne : bs ≠ [])
    (hs : p.state = .s_body_identity) (hlength : p.content_length = bs.length)
    (hup : p.upgrade = false) (herr : p.http_errno = .HPE_OK) (pos : Nat) :
    ∃ p', p'.upgrade = false ∧
      parse settings e pos bs = some ⟨p', done (body (l ++ bs) u), pos + bs.length⟩ := by
  induction bs generalizing e p l pos with
  | nil => exact absurd rfl hne
  | cons c rest ih =>
      have hparser : e.parser = p := congrArg Exec.parser hmark
      have hscan : e.scan = none := congrArg Exec.scan hmark
      have hturn : turn settings e c = bodyIdentity settings e c := by
        unfold turn switch
        simp only [hscan, hparser, hs, State.parsingHeader, Bool.false_eq_true, if_false]
      have hcount : p.content_length - 1 = rest.length := by
        rw [hlength, List.length_cons, Nat.add_sub_cancel]
      rw [bodyIdentity, hmark] at hturn
      cases rest with
      | nil =>
          have hzero : ((Exec.inside p u .body l none).modify fun p =>
              { p with content_length := p.content_length - 1 }).parser.content_length = 0 := hcount
          generalize hq : { p with
            content_length := p.content_length - 1
            state := State.s_message_done } = q
          have hcall := callbackData_inside q u .body l [c] 0 (messageDone settings)
            (congrArg Prod.snd (hbody _ _ _))
          rw [hbody] at hcall
          have hlast : messageDone settings (.between q (body (l ++ [c]) u)) =
              .next (.between { q with state := q.newMessage } (done (body (l ++ [c]) u))) := by
            have hup' : q.upgrade = false := by rw [← hq]; exact hup
            unfold messageDone messageComplete Exec.callbackNotify
            rw [hdone]
            simp [Exec.between, Exec.goto, hup']
          rw [if_pos hzero] at hturn
          have hstep : turn settings e c =
              .next (.between { q with state := q.newMessage } (done (body (l ++ [c]) u))) := by
            rw [hturn, ← hlast, ← hcall, ← hq]
            rfl
          have hup' : q.upgrade = false := by rw [← hq]; exact hup
          refine ⟨{ q with state := q.newMessage }, hup', ?_⟩
          rw [parse_next hstep]
          have herr' : q.http_errno = .HPE_OK := by rw [← hq]; exact herr
          exact if_pos herr'
      | cons c' rest' =>
          have hzero : ¬ ((Exec.inside p u .body l none).modify fun p =>
              { p with content_length := p.content_length - 1 }).parser.content_length = 0 := by
            show ¬ p.content_length - 1 = 0
            rw [hcount]
            exact Nat.succ_ne_zero _
          rw [if_neg hzero] at hturn
          generalize hq : { p with content_length := p.content_length - 1 } = q
          have hstep : turn settings e c = .next (.inside q u .body l none) := by
            rw [hturn, ← hq]
            rfl
          have hmark' : ((Exec.inside q u .body l none).advance c).setMark .body =
              .inside q u .body (l ++ [c]) none := by
            rw [Exec.inside_advance]
            unfold Exec.setMark Exec.inside
            congr 1
            funext x
            by_cases hx : x = .body
            · simp [hx]
            · simp [hx]
          have hs' : q.state = .s_body_identity := by rw [← hq]; exact hs
          have hlength' : q.content_length = (c' :: rest').length := by rw [← hq]; exact hcount
          have hup' : q.upgrade = false := by rw [← hq]; exact hup
          have herr' : q.http_errno = .HPE_OK := by rw [← hq]; exact herr
          obtain ⟨p', hend, hparse⟩ :=
            ih hmark' (List.cons_ne_nil _ _) hs' hlength' hup' herr' (pos + 1)
          refine ⟨p', hend, ?_⟩
          rw [parse_next hstep, hparse, List.append_assoc, List.length_cons (a := c), Nat.add_assoc,
            Nat.add_comm 1]
          rfl

end Gxh.HttpParser
