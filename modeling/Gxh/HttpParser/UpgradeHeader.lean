import Gxh.HttpParser.HeaderLine

/-!
# The header `upgrade`

`http_parser` announces an upgrade of a request by `F_UPGRADE`, which a header of that name sets
when its value begins. What follows is about header lines of other names: each byte leads from one
place of a line to the next with the flag down (`leads_*`), or the call ends with an error.
`lines_keep_upgrade` puts lines together.
-/

namespace Gxh.HttpParser

variable {σ : Type} {settings : Settings σ} {e : Exec σ} {ch : UInt8} {p : Parser}

/-! ## The name -/

/-- How much of `upgrade` has been read: `pre` is the name so far, in lower case. -/
def SpelledUpgrade (pre : List UInt8) (p : Parser) : Prop :=
  match p.header_state with
  | .h_matching_upgrade => pre = (bytes "upgrade").take (p.index + 1)
  | .h_upgrade => pre = bytes "upgrade"
  | _ => True

theorem spelledUpgrade_of_ne {pre : List UInt8} {s : HeaderState} (hs : p.header_state = s)
    (h : s ≠ .h_matching_upgrade ∧ s ≠ .h_upgrade) : SpelledUpgrade pre p := by
  unfold SpelledUpgrade
  rw [hs]
  split
  · exact absurd rfl h.1
  · exact absurd rfl h.2
  · trivial

theorem spelledUpgrade_start (c : UInt8) (h : p.header_state = nameStart c) (hindex : p.index = 0) :
    SpelledUpgrade [c] p := by
  unfold SpelledUpgrade
  rw [h, nameStart]
  by_cases hu : c = 'u'
  · subst hu
    rw [hindex]
    rfl
  · split_ifs <;> trivial

theorem SpelledUpgrade.step {pre : List UInt8} (h : SpelledUpgrade pre p) (hc : token ch ≠ 0) :
    SpelledUpgrade (pre ++ [token ch]) (fieldChar ch (token ch) p) := by
  have hspace : ch ≠ ' ' := by
    rintro rfl
    exact hc (by decide)
  -- the words that are matched beside this one lead to other states
  have hword : ∀ w own full, own ≠ .h_matching_upgrade ∧ own ≠ .h_upgrade →
      full ≠ .h_matching_upgrade ∧ full ≠ .h_upgrade →
      SpelledUpgrade (pre ++ [token ch]) (matchWord w (token ch) own full .h_general p) := by
    intro w own full hown hfull
    rcases matchWord_eq hc w own full p with hst | ⟨hst, -⟩ | ⟨hst, -⟩
    · exact spelledUpgrade_of_ne hst (by decide)
    · exact spelledUpgrade_of_ne hst hown
    · exact spelledUpgrade_of_ne hst hfull
  unfold SpelledUpgrade at h
  cases hstate : p.header_state <;> simp only [hstate] at h <;> simp only [fieldChar, hstate]
  case h_matching_upgrade =>
      subst h
      rcases matchWord_eq hc "upgrade" .h_matching_upgrade .h_upgrade p
        with hgen | ⟨hown, htake⟩ | ⟨hfull, htake⟩
      · exact spelledUpgrade_of_ne hgen (by decide)
      · unfold SpelledUpgrade
        rw [hown]
        exact htake
      · unfold SpelledUpgrade
        rw [hfull]
        exact htake
  case h_matching_connection | h_matching_proxy_connection | h_matching_content_length
      | h_matching_transfer_encoding =>
    exact hword _ _ _ (by decide) (by decide)
  case h_C | h_CO => split <;> trivial
  case h_CON =>
      split
      · trivial
      · split <;> trivial
  case h_connection | h_content_length | h_transfer_encoding | h_upgrade =>
      rw [if_pos hspace]
      trivial
  all_goals exact spelledUpgrade_of_ne hstate (by decide)

/-! ## Rounds -/

/-- A round that goes on with a parser for which `Q` holds, or ends the call with an error. -/
def Leads (Q : Parser → Prop) : Turn σ → Prop
  | .next e => Q e.parser
  | .stop e _ => e.parser.http_errno ≠ .HPE_OK

namespace Leads

variable {Q : Parser → Prop} {k : Exec σ → Turn σ} {a b : Turn σ}

theorem fail {err : HttpErrno} (h : err ≠ .HPE_OK) : Leads Q (e.fail err) := h

theorem ite {c : Prop} [Decidable c] (h : c → Leads Q a) (h' : ¬c → Leads Q b) :
    Leads Q (if c then a else b) := by
  by_cases hc : c
  · simpa only [if_pos hc] using h hc
  · simpa only [if_neg hc] using h' hc

theorem strict {c : Bool} (h : Leads Q a) : Leads Q (e.strictCheck c a) :=
  .ite (fun _ => .fail (by decide)) fun _ => h

theorem count {v : Nat} (h : ∀ n, Leads Q (k (e.modify fun p => { p with nread := n }))) :
    Leads Q (e.countHeaderSize v k) :=
  .ite (fun _ => .fail (by decide)) fun _ => h _

theorem data {d : Data} {t : List UInt8} {adv : Nat}
    (h : ∀ e', e'.parser = e.parser → Leads Q (k e')) :
    Leads Q (e.callbackData settings d t adv k) := by
  cases hm : e.mark d with
  | none =>
      rw [Exec.callbackData_none hm]
      exact h e rfl
  | some l =>
      rw [Exec.callbackData_some hm]
      exact .ite (fun _ => (nofun : HttpErrno.HPE_CB_data d ≠ .HPE_OK)) fun _ => h _ rfl

/-- A round looks at the parser with its byte counted, or in the loop of a name or a value. -/
theorem turn (h : ∀ (n : Nat) (e' : Exec σ), e'.parser = e.parser.put e.parser.state n →
    Leads Q (switch settings e' ch)) : Leads Q (turn settings e ch) := by
  unfold HttpParser.turn
  split
  · exact h e.parser.nread _ rfl
  · exact .ite (fun _ => .count fun n => h n _ rfl) fun _ => h e.parser.nread _ rfl

theorem parse (h : Leads Q (HttpParser.turn settings e ch)) {pos : Nat} {rest : List UInt8}
    {r : Result σ} (hr : HttpParser.parse settings e pos (ch :: rest) = some r) :
    ∃ e', Q e'.parser ∧ HttpParser.parse settings e' (pos + 1) rest = some r := by
  unfold HttpParser.parse at hr
  rw [run] at hr
  cases hturn : HttpParser.turn settings e ch with
  | next e' =>
      rw [hturn] at h hr
      exact ⟨e'.advance ch, h, hr⟩
  | stop e' n =>
      rw [hturn] at h hr
      have hnone : Result.accepted ⟨e'.parser, e'.user, pos + n⟩ = none := if_neg h
      rw [hnone] at hr
      cases hr

end Leads

/-! ## The places of a line -/

/-- Where a header line may start. -/
structure AtLine (p : Parser) : Prop where
  state : p.state = .s_header_field_start ∨ p.state = .s_header_value_lws ∨
    p.state = .s_header_value_discard_lws
  flag : p.flags.F_UPGRADE = false

/-- In a name, of which `pre` has been read. -/
structure InName (pre : List UInt8) (p : Parser) : Prop where
  state : p.state = .s_header_field
  flag : p.flags.F_UPGRADE = false
  name : SpelledUpgrade pre p

/-- Before a value or in it. -/
structure InValue (p : Parser) : Prop where
  state : p.state = .s_header_value_discard_ws ∨ p.state = .s_header_value
  flag : p.flags.F_UPGRADE = false
  name : p.header_state ≠ .h_upgrade

/-- Between the two bytes of the line end. -/
structure InEnd (p : Parser) : Prop where
  state : p.state = .s_header_value_discard_ws_almost_done ∨ p.state = .s_header_almost_done
  flag : p.flags.F_UPGRADE = false

/-- Behind the first byte of the empty line. -/
def Calm (p : Parser) : Prop := p.flags.F_UPGRADE = false

theorem finishHeader_upgrade (p : Parser) : p.finishHeader.flags.F_UPGRADE = p.flags.F_UPGRADE := by
  unfold Parser.finishHeader
  split <;> rfl

/-- What a line starts with, once the one before it is settled. -/
theorem leads_fieldStart {Q : Parser → Prop}
    (h : ∀ e' : Exec σ, e'.parser.flags.F_UPGRADE = false →
      Leads Q (headerFieldStart settings e' ch)) (hblank : isBlank ch = false)
    (hp : AtLine e.parser) : Leads Q (turn settings e ch) := by
  have hnot : ¬ (ch = ' ' ∨ ch = 9) := by
    rw [← isBlank_iff, hblank]
    decide
  refine .turn fun n e' he' => ?_
  have hflag : e'.parser.flags.F_UPGRADE = false := by
    rw [he']
    exact hp.flag
  have hstate : e'.parser.state = e.parser.state := by rw [he']; rfl
  unfold switch
  rcases hp.state with hs | hs | hs
  · simp only [hstate, hs]
    exact h e' hflag
  · simp only [hstate, hs, headerValueLws, if_neg hnot]
    exact h _ ((finishHeader_upgrade _).trans hflag)
  · simp only [hstate, hs, headerValueDiscardLws, if_neg hnot]
    refine .ite (fun _ => .fail (by decide)) fun _ => .data fun e'' he'' => h e'' ?_
    rw [he'']
    exact (finishHeader_upgrade _).trans hflag

theorem leads_nameStart (hp : AtLine e.parser) (hc : token ch ≠ 0) :
    Leads (InName [token ch]) (turn settings e ch) := by
  have hblank : isBlank ch = false := by
    rw [← Bool.not_eq_true, isBlank_iff]
    rintro (rfl | rfl)
    · exact hc (by decide)
    · exact hc (by decide)
  have hend : ch ≠ CR ∧ ch ≠ LF := by
    constructor
    · rintro rfl
      exact hc (by decide)
    · rintro rfl
      exact hc (by decide)
  refine leads_fieldStart (fun e' hflag => ?_) hblank hp
  unfold headerFieldStart
  simp only [hend.1, hend.2, hc, if_false]
  exact ⟨rfl, hflag, spelledUpgrade_start _ rfl rfl⟩

theorem leads_nameChar {pre : List UInt8} (hp : InName pre e.parser) (hc : token ch ≠ 0) :
    Leads (InName (pre ++ [token ch])) (turn settings e ch) := by
  refine .turn fun n e' he' => ?_
  have hstate : e'.parser.state = .s_header_field := by rw [he']; exact hp.state
  have hname : SpelledUpgrade pre e'.parser := by rw [he']; exact hp.name
  have hflag : e'.parser.flags.F_UPGRADE = false := by rw [he']; exact hp.flag
  unfold switch
  simp only [hstate, headerField, if_pos hc]
  have hkeeps := fieldChar_keeps ch (token ch) e'.parser
  have hsame : (fieldChar ch (token ch) e'.parser).flags = e'.parser.flags := by
    unfold fieldChar matchWord
    dsimp only
    split <;> (try split_ifs) <;> rfl
  refine ⟨hkeeps.state.trans hstate, ?_, hname.step hc⟩
  show (fieldChar ch (token ch) e'.parser).flags.F_UPGRADE = false
  rw [hsame]
  exact hflag

theorem leads_colon {pre : List UInt8} (hp : InName pre e.parser) (hne : pre ≠ bytes "upgrade") :
    Leads InValue (turn settings e ':') := by
  have hnot : e.parser.header_state ≠ .h_upgrade := by
    intro hst
    have hname := hp.name
    rw [SpelledUpgrade, hst] at hname
    exact hne hname
  refine .turn fun n e' he' => ?_
  have hstate : e'.parser.state = .s_header_field := by rw [he']; exact hp.state
  unfold switch
  simp only [hstate, headerField]
  refine .ite (fun h => absurd h (by decide)) fun _ => .count fun m => ?_
  simp only [if_true]
  refine .data fun e'' he'' => ?_
  refine ⟨.inl ?_, ?_, ?_⟩
  · rw [he'']
    rfl
  · rw [he'']
    show e'.parser.flags.F_UPGRADE = false
    rw [he']
    exact hp.flag
  · rw [he'']
    show e'.parser.header_state ≠ .h_upgrade
    rw [he']
    exact hnot

/-! ## The value -/

theorem matchWord_value {w : String} {c : UInt8} {own full other : HeaderState}
    (hown : own ≠ .h_upgrade) (hfull : full ≠ .h_upgrade) (hother : other ≠ .h_upgrade) :
    (matchWord w c own full other p).state = p.state ∧
      (matchWord w c own full other p).flags = p.flags ∧
        (matchWord w c own full other p).header_state ≠ .h_upgrade := by
  unfold matchWord
  dsimp only
  split_ifs
  · exact ⟨rfl, rfl, hother⟩
  · exact ⟨rfl, rfl, hfull⟩
  · exact ⟨rfl, rfl, hown⟩

theorem contentLengthNum_value {p' : Parser} (h : contentLengthNum ch p = .ok p') :
    p'.state = p.state ∧ p'.flags = p.flags ∧ p'.header_state ≠ .h_upgrade := by
  unfold contentLengthNum at h
  split_ifs at h <;> cases h <;> exact ⟨rfl, rfl, nofun⟩

theorem nextToken_value {flags : Flags} (hp : p.header_state ≠ .h_upgrade)
    (hflags : flags.F_UPGRADE = p.flags.F_UPGRADE) :
    (valueChar.nextToken ch p flags).state = p.state ∧
      (valueChar.nextToken ch p flags).flags.F_UPGRADE = p.flags.F_UPGRADE ∧
        (valueChar.nextToken ch p flags).header_state ≠ .h_upgrade := by
  unfold valueChar.nextToken
  split_ifs
  · exact ⟨rfl, hflags, nofun⟩
  · exact ⟨rfl, rfl, nofun⟩
  · exact ⟨rfl, rfl, hp⟩

theorem valueChar_upgrade {c : UInt8} {p' : Parser} (hp : p.header_state ≠ .h_upgrade)
    (h : valueChar ch c p = .ok p') :
    p'.state = p.state ∧ p'.flags.F_UPGRADE = p.flags.F_UPGRADE ∧
      p'.header_state ≠ .h_upgrade := by
  -- the three ways in which a character of a value changes the parser
  have hword : ∀ {w own full other}, own ≠ .h_upgrade → full ≠ .h_upgrade → other ≠ .h_upgrade →
      matchWord w c own full other p = p' →
      p'.state = p.state ∧ p'.flags.F_UPGRADE = p.flags.F_UPGRADE ∧
        p'.header_state ≠ .h_upgrade := by
    rintro w own full other hown hfull hother rfl
    obtain ⟨hst, hflags, hne⟩ := matchWord_value (w := w) (c := c) (p := p) hown hfull hother
    exact ⟨hst, congrArg Flags.F_UPGRADE hflags, hne⟩
  have hdigits : contentLengthNum ch p = .ok p' →
      p'.state = p.state ∧ p'.flags.F_UPGRADE = p.flags.F_UPGRADE ∧
        p'.header_state ≠ .h_upgrade := by
    intro hnum
    obtain ⟨hst, hflags, hne⟩ := contentLengthNum_value hnum
    exact ⟨hst, congrArg Flags.F_UPGRADE hflags, hne⟩
  unfold valueChar at h
  cases hstate : p.header_state <;> simp only [hstate] at h
  case h_upgrade => exact absurd hstate hp
  case h_content_length_num => exact hdigits h
  case h_content_length =>
      split at h
      · cases h
        exact ⟨rfl, rfl, hp⟩
      · exact hdigits h
  case h_content_length_ws =>
      split at h <;> cases h
      exact ⟨rfl, rfl, hp⟩
  case h_matching_transfer_encoding_chunked | h_matching_connection_keep_alive
      | h_matching_connection_close | h_matching_connection_upgrade =>
    exact hword (by decide) (by decide) (by decide) (Except.ok.inj h)
  case h_connection_keep_alive | h_connection_close | h_connection_upgrade =>
      cases h
      exact nextToken_value hp rfl
  case h_matching_connection_token_start =>
      cases h
      split_ifs
      all_goals first | exact ⟨rfl, rfl, hp⟩ | exact ⟨rfl, rfl, fun h => by cases h⟩
  case h_matching_connection_token | h_transfer_encoding_chunked =>
      cases h
      split_ifs
      · exact ⟨rfl, rfl, nofun⟩
      · exact ⟨rfl, rfl, hp⟩
  all_goals
    cases h
    first | exact ⟨rfl, rfl, hp⟩ | exact ⟨rfl, rfl, fun h => by cases h⟩

theorem leads_valueStart (hflag : e.parser.flags.F_UPGRADE = false)
    (hname : e.parser.header_state ≠ .h_upgrade) : Leads InValue (headerValueStart e ch) := by
  have henter : ∀ h : HeaderState, h ≠ .h_upgrade →
      InValue { e.parser with state := .s_header_value, index := 0, header_state := h } :=
    fun _ h => ⟨.inr rfl, hflag, h⟩
  have hstay : InValue { e.parser with state := .s_header_value, index := 0 } :=
    ⟨.inr rfl, hflag, hname⟩
  unfold headerValueStart
  dsimp only
  split
  case h_1 h => exact absurd h hname
  case h_2 | h_5 =>
    refine henter _ ?_
    split_ifs <;> decide
  case h_3 =>
      refine .ite (fun _ => .fail (by decide)) fun _ => ?_
      refine .ite (fun _ => .fail (by decide)) fun _ => ?_
      exact ⟨.inr rfl, hflag, (by decide : HeaderState.h_content_length_num ≠ .h_upgrade)⟩
  case h_4 | h_6 => exact hstay
  case h_7 => exact henter _ (by decide)

theorem leads_valueChar (hp : InValue e.parser) (hCR : ch ≠ CR) (hLF : ch ≠ LF) :
    Leads InValue (turn settings e ch) := by
  refine .turn fun n e' he' => ?_
  have hstate : e'.parser.state = e.parser.state := by rw [he']; rfl
  have hflag : e'.parser.flags.F_UPGRADE = false := by rw [he']; exact hp.flag
  have hname : e'.parser.header_state ≠ .h_upgrade := by rw [he']; exact hp.name
  unfold switch
  rcases hp.state with hs | hs
  · simp only [hstate, hs, headerValueDiscardWs, if_neg hCR, if_neg hLF]
    exact .ite (fun _ => ⟨.inl (hstate.trans hs), hflag, hname⟩) fun _ =>
      leads_valueStart hflag hname
  · simp only [hstate, hs, headerValue, if_neg hCR, if_neg hLF]
    refine .ite (fun _ => .fail (by decide)) fun _ => ?_
    have hkeeps := valueChar_keeps ch (lower ch) e'.parser
    cases hchar : valueChar ch (lower ch) e'.parser with
    | error err =>
        rw [hchar] at hkeeps
        exact .fail hkeeps
    | ok p' =>
        obtain ⟨hst, hsame, hne⟩ := valueChar_upgrade hname hchar
        exact ⟨.inr (hst.trans (hstate.trans hs)), hsame.trans hflag, hne⟩

theorem leads_valueEnd (hp : InValue e.parser) : Leads InEnd (turn settings e CR) := by
  refine .turn fun n e' he' => ?_
  have hstate : e'.parser.state = e.parser.state := by rw [he']; rfl
  have hflag : e'.parser.flags.F_UPGRADE = false := by rw [he']; exact hp.flag
  unfold switch
  rcases hp.state with hs | hs
  · simp only [hstate, hs, headerValueDiscardWs]
    refine .ite (fun h => absurd h (by decide)) fun _ => ?_
    simp only [if_true]
    exact ⟨.inl rfl, hflag⟩
  · simp only [hstate, hs, headerValue, if_true]
    refine .data fun e'' he'' => .count fun m => ⟨.inr ?_, ?_⟩
    · show e''.parser.state = _
      rw [he'']
      rfl
    · show e''.parser.flags.F_UPGRADE = _
      rw [he'']
      exact hflag

theorem leads_lineEnd (hp : InEnd e.parser) : Leads AtLine (turn settings e LF) := by
  refine .turn fun n e' he' => ?_
  have hstate : e'.parser.state = e.parser.state := by rw [he']; rfl
  have hflag : e'.parser.flags.F_UPGRADE = false := by rw [he']; exact hp.flag
  unfold switch
  rcases hp.state with hs | hs
  · simp only [hstate, hs, expect]
    exact .strict ⟨.inr (.inr rfl), hflag⟩
  · simp only [hstate, hs, headerAlmostDone]
    exact .ite (fun _ => .fail (by decide)) fun _ => ⟨.inr (.inl rfl), hflag⟩

theorem leads_emptyLine (hp : AtLine e.parser) : Leads Calm (turn settings e CR) := by
  refine leads_fieldStart (fun e' hflag => ?_) (by decide) hp
  unfold headerFieldStart
  simp only [if_true]
  exact hflag

/-! ## Whole lines -/

/-- The bytes of a name, from the second one on, with the colon. -/
theorem parse_nameRest {pre cs rest : List UInt8} {pos : Nat} {r : Result σ}
    (hcs : ∀ c ∈ cs, token c ≠ 0) (hp : InName pre e.parser)
    (hne : pre ++ cs.map token ≠ bytes "upgrade")
    (hr : parse settings e pos (cs ++ (':' : UInt8) :: rest) = some r) :
    ∃ e' pos', InValue e'.parser ∧ parse settings e' pos' rest = some r := by
  induction cs generalizing e pre pos with
  | nil =>
      rw [List.map_nil, List.append_nil] at hne
      obtain ⟨e', hp', hr'⟩ := (leads_colon hp hne).parse hr
      exact ⟨e', pos + 1, hp', hr'⟩
  | cons c cs ih =>
      have hc := hcs c List.mem_cons_self
      obtain ⟨e', hp', hr'⟩ := (leads_nameChar hp hc).parse hr
      refine ih (fun x hx => hcs x (List.mem_cons_of_mem _ hx)) hp' ?_ hr'
      rwa [List.append_assoc, List.singleton_append, ← List.map_cons]

theorem parse_value {v rest : List UInt8} {pos : Nat} {r : Result σ}
    (hv : ∀ c ∈ v, c ≠ CR ∧ c ≠ LF) (hp : InValue e.parser)
    (hr : parse settings e pos (v ++ CR :: LF :: rest) = some r) :
    ∃ e' pos', AtLine e'.parser ∧ parse settings e' pos' rest = some r := by
  induction v generalizing e pos with
  | nil =>
      obtain ⟨e₁, hp₁, hr₁⟩ := (leads_valueEnd hp).parse hr
      obtain ⟨e₂, hp₂, hr₂⟩ := (leads_lineEnd hp₁).parse hr₁
      exact ⟨e₂, pos + 1 + 1, hp₂, hr₂⟩
  | cons c v ih =>
      obtain ⟨hCR, hLF⟩ := hv c List.mem_cons_self
      obtain ⟨e', hp', hr'⟩ := (leads_valueChar hp hCR hLF).parse hr
      exact ih (fun x hx => hv x (List.mem_cons_of_mem _ hx)) hp' hr'

/-- What is left over at the end of a buffer is reported, and that is all. -/
theorem endOfData_calm {pos : Nat} {r : Result σ} (hp : Calm e.parser)
    (hr : parse settings e pos [] = some r) : r.parser.flags.F_UPGRADE = false := by
  have hflush : ∀ e : Exec σ, Calm e.parser → Leads Calm (flush settings e) := by
    intro e hp
    unfold flush
    refine .data fun e₁ he₁ => .data fun e₂ he₂ => .data fun e₃ he₃ => .data fun e₄ he₄ =>
      .data fun e₅ he₅ => ?_
    show e₅.parser.flags.F_UPGRADE = false
    rw [he₅, he₄, he₃, he₂, he₁]
    exact hp
  have hresult : ∀ e : Exec σ, Calm e.parser → ((flush settings e).result pos).accepted = some r →
      r.parser.flags.F_UPGRADE = false := by
    intro e hp hr
    have hleads := hflush e hp
    unfold Result.accepted at hr
    cases hturn : flush settings e with
    | next e' =>
        rw [hturn] at hleads hr
        split at hr <;> cases hr
        exact hleads
    | stop e' n =>
        rw [hturn] at hleads hr
        rw [Turn.result, if_neg hleads] at hr
        cases hr
  unfold parse run endOfData at hr
  -- a loop inside a case counts what it has read when the data end
  cases hscan : e.scan with
  | none =>
      rw [hscan] at hr
      exact hresult e hp hr
  | some k =>
      rw [hscan] at hr
      have hcount : Leads Calm ({ e with scan := none }.countHeaderSize k .next) :=
        .count fun _ => hp
      dsimp only at hr
      cases hturn : Exec.countHeaderSize { e with scan := none } k .next with
      | next e' =>
          rw [hturn] at hcount hr
          exact hresult e' hcount hr
      | stop e' n =>
          rw [hturn] at hcount hr
          unfold Result.accepted at hr
          rw [if_neg hcount] at hr
          cases hr

/-- Header lines with other names, and the empty line as far as it is not acted on, leave the
flag down. -/
theorem lines_keep_upgrade {fields : List (List UInt8 × List UInt8)} {pos : Nat} {r : Result σ}
    (hnames : ∀ i ∈ fields, i.1 ≠ [] ∧ (∀ c ∈ i.1, token c ≠ 0) ∧ i.1.map token ≠ bytes "upgrade")
    (hvalues : ∀ i ∈ fields, ∀ c ∈ i.2, c ≠ CR ∧ c ≠ LF) (hp : AtLine e.parser)
    (hr : parse settings e pos
      ((fields.flatMap fun i => i.1 ++ (':' : UInt8) :: (i.2 ++ [CR, LF])) ++ [CR]) = some r) :
    r.parser.flags.F_UPGRADE = false := by
  induction fields generalizing e pos with
  | nil =>
      obtain ⟨e', hp', hr'⟩ := (leads_emptyLine hp).parse hr
      exact endOfData_calm hp' hr'
  | cons i rest ih =>
      obtain ⟨⟨hne, htoken, hname⟩, hothers⟩ := List.forall_mem_cons.mp hnames
      obtain ⟨hvalue, hrest⟩ := List.forall_mem_cons.mp hvalues
      obtain ⟨name, v⟩ := i
      cases name with
      | nil => exact absurd rfl hne
      | cons c cs =>
          obtain ⟨hc, hcs⟩ := List.forall_mem_cons.mp htoken
          simp only [List.flatMap_cons, List.cons_append, List.append_assoc] at hr
          obtain ⟨e₁, hp₁, hr₁⟩ := (leads_nameStart hp hc).parse hr
          obtain ⟨e₂, pos₂, hp₂, hr₂⟩ := parse_nameRest hcs hp₁ hname hr₁
          obtain ⟨e₃, pos₃, hp₃, hr₃⟩ := parse_value hvalue hp₂ hr₂
          exact ih hothers hrest hp₃ hr₃

end Gxh.HttpParser
