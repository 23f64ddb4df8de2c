import Gxh.HttpParser.Steady

/-!
# No more body than bytes

`on_body` gets bytes of the buffer, each of them once: what it is given in a call is no longer than
the buffer, whether the call succeeds or not (`execute_grows`).

Between two rounds a body has the bytes that were reported and those under its mark. No round does
more than to mark the byte it reads (`turn_within`).
-/

namespace Gxh.HttpParser

variable {σ : Type} {settings : Settings σ} {size : σ → Nat} {c n : Nat} {e : Exec σ} {ch : UInt8}

/-- `on_body` makes the object larger by what it is given at most, and no other callback does. -/
structure Settings.Grows (settings : Settings σ) (size : σ → Nat) : Prop where
  notify : ∀ n p u, size (settings.onNotify n p u).1 = size u
  data : ∀ d p l u, size (settings.onData d p l u).1 ≤ size u + if d = .body then l.length else 0

/-- What was reported of bodies and what is marked, with `c` more bytes if a mark is set. -/
def Exec.held (size : σ → Nat) (c : Nat) (e : Exec σ) : Nat :=
  size e.user + ((e.mark .body).map fun l => l.length + c).getD 0

/-- A round that leaves at most `n` bytes of bodies. -/
def Turn.Within (size : σ → Nat) (c n : Nat) : Turn σ → Prop
  | .next e => e.held size c ≤ n
  | .stop e _ => size e.user ≤ n

/-! ## Steps of a round -/

theorem held_of_none (h : e.mark .body = none) : e.held size c = size e.user := by
  rw [Exec.held, h]
  rfl

theorem held_of_some {l : List UInt8} (h : e.mark .body = some l) :
    e.held size c = size e.user + (l.length + c) := by
  rw [Exec.held, h]
  rfl

theorem held_mono {e' : Exec σ} (hu : size e'.user ≤ size e.user)
    (hm : e'.mark .body = e.mark .body) : e'.held size c ≤ e.held size c := by
  rw [Exec.held, Exec.held, hm]
  exact Nat.add_le_add_right hu _

theorem held_setMark {d : Data} (hd : d ≠ .body) : (e.setMark d).held size c ≤ e.held size c :=
  held_mono (Nat.le_refl _) (Function.update_of_ne hd.symm _ _)

theorem held_advance (ch : UInt8) : (e.advance ch).held size 0 = e.held size 1 := by
  have hm : (e.advance ch).mark .body = (e.mark .body).map (· ++ [ch]) := rfl
  cases hbody : e.mark .body with
  | none =>
      rw [hbody] at hm
      rw [held_of_none hm, held_of_none hbody]
      rfl
  | some l =>
      rw [hbody] at hm
      rw [held_of_some hm, held_of_some hbody, List.length_append]
      rfl

theorem held_one_le : e.held size 1 ≤ e.held size 0 + 1 := by
  cases hbody : e.mark .body with
  | none =>
      have hheld : ∀ c, e.held size c = size e.user := fun _ => held_of_none hbody
      rw [hheld, hheld]
      exact Nat.le_succ _
  | some l =>
      have hheld : ∀ c, e.held size c = size e.user + (l.length + c) := fun _ => held_of_some hbody
      rw [hheld, hheld]
      exact Nat.le_refl _

/-- The byte of a body is the one that is read. -/
theorem held_setMark_body : (e.setMark .body).held size 1 ≤ e.held size 0 + 1 := by
  have hm : (e.setMark .body).mark .body = some ((e.mark .body).getD []) :=
    Function.update_self Data.body _ e.mark
  have hmarked : (e.setMark .body).held size 1 =
      size e.user + (((e.mark .body).getD []).length + 1) :=
    held_of_some hm
  cases hbody : e.mark .body with
  | none =>
      have hheld : e.held size 0 = size e.user := held_of_none hbody
      rw [hbody, Option.getD_none, List.length_nil] at hmarked
      omega
  | some l =>
      have hheld : e.held size 0 = size e.user + (l.length + 0) := held_of_some hbody
      rw [hbody, Option.getD_some] at hmarked
      omega

theorem size_le_held (size : σ → Nat) (c : Nat) (e : Exec σ) : size e.user ≤ e.held size c :=
  Nat.le_add_right _ _

namespace Turn.Within

variable {a b : Turn σ} {k : Exec σ → Turn σ}

theorem next (h : e.held size c ≤ n) : (Turn.next e).Within size c n := h

theorem stop {m : Nat} (h : e.held size c ≤ n) : (Turn.stop e m).Within size c n :=
  Nat.le_trans (size_le_held size c e) h

theorem fail {err : HttpErrno} (h : e.held size c ≤ n) : (e.fail err).Within size c n :=
  Nat.le_trans (size_le_held size c e) h

theorem ite {p : Prop} [Decidable p] (h : a.Within size c n) (h' : b.Within size c n) :
    (if p then a else b).Within size c n := by
  by_cases hp : p
  · rwa [if_pos hp]
  · rwa [if_neg hp]

theorem strict {p : Bool} (h : e.held size c ≤ n) (ha : a.Within size c n) :
    (e.strictCheck p a).Within size c n :=
  ite (fail h) ha

theorem count {v : Nat} (h : e.held size c ≤ n)
    (hk : ∀ e', e'.held size c ≤ n → (k e').Within size c n) :
    (e.countHeaderSize v k).Within size c n :=
  ite (fail h) (hk _ h)

theorem notify (hS : settings.Grows size) {m : Notice} {adv : Nat} (h : e.held size c ≤ n)
    (hk : ∀ e', e'.held size c ≤ n → (k e').Within size c n) :
    (e.callbackNotify settings m adv k).Within size c n := by
  have hle : Exec.held size c { e with user := (settings.onNotify m e.parser e.user).1 } ≤ n :=
    Nat.le_trans (held_mono (Nat.le_of_eq (hS.notify m e.parser e.user)) rfl) h
  exact ite (stop hle) (hk _ hle)

theorem headersComplete (hS : settings.Grows size) (h : e.held size c ≤ n)
    (hk : ∀ e', e'.held size c ≤ n → (k e').Within size c n) :
    (headersComplete settings e k).Within size c n := by
  have hle : Exec.held size c
      { e with user := (settings.onNotify .headers_complete e.parser e.user).1 } ≤ n :=
    Nat.le_trans (held_mono (Nat.le_of_eq (hS.notify .headers_complete e.parser e.user)) rfl) h
  exact ite (hk _ hle) (ite (hk _ hle) (ite (hk _ hle) (fail hle)))

/-- A data callback that is given at most `c` bytes beyond its mark. -/
theorem data (hS : settings.Grows size) {d : Data} {t : List UInt8} {adv : Nat}
    (ht : t.length ≤ c) (h : e.held size c ≤ n)
    (hk : ∀ e', e'.held size c ≤ n → (k e').Within size c n) :
    (e.callbackData settings d t adv k).Within size c n := by
  cases hm : e.mark d with
  | none =>
      rw [Exec.callbackData_none hm]
      exact hk e h
  | some l =>
      have hgrown := hS.data d e.parser (l ++ t) e.user
      rw [Exec.callbackData_some hm]
      by_cases hd : d = .body
      · -- the bytes under the mark are reported now
        subst hd
        rw [held_of_some hm] at h
        rw [if_pos rfl, List.length_append] at hgrown
        have hle : size (settings.onData .body e.parser (l ++ t) e.user).1 ≤ n := by omega
        have hnone : Function.update e.mark .body none .body = none :=
          Function.update_self Data.body _ e.mark
        exact ite hle (hk _ (Nat.le_trans (Nat.le_of_eq (held_of_none hnone)) hle))
      · rw [if_neg hd, Nat.add_zero] at hgrown
        have hle : Exec.held size c { e with
            user := (settings.onData d e.parser (l ++ t) e.user).1
            mark := Function.update e.mark d none } ≤ n :=
          Nat.le_trans (held_mono hgrown (Function.update_of_ne (Ne.symm hd) _ _)) h
        exact ite (Nat.le_trans hgrown (Nat.le_trans (size_le_held size c e) h)) (hk _ hle)

theorem notice (hS : settings.Grows size) {m : Notice} {adv : Nat} (h : e.held size c ≤ n) :
    (e.callbackNotify settings m adv .next).Within size c n :=
  notify hS h fun _ he => next he

theorem element (hS : settings.Grows size) {d : Data} {adv : Nat} (h : e.held size c ≤ n) :
    (e.callbackData settings d [] adv .next).Within size c n :=
  data hS (Nat.zero_le c) h fun _ he => next he

end Turn.Within

/-! ## The cases -/

open Turn (Within)

section Cases

variable (hS : settings.Grows size) (h : e.held size c ≤ n)
include h

theorem within_expect {x : UInt8} {s : State} : (expect e ch x s).Within size c n :=
  .strict h (.next h)

theorem within_versionDigit {set : Nat → Parser → Parser} {s : State} :
    (versionDigit e ch set s).Within size c n :=
  .ite (.fail h) (.next h)

theorem within_resOrRespH : (resOrRespH e ch).Within size c n :=
  .ite (.next h) (.ite (.fail h) (.next h))

theorem within_resFirstStatusCode : (resFirstStatusCode e ch).Within size c n :=
  .ite (.ite (.next h) (.fail h)) (.next h)

theorem within_reqMethod : (reqMethod e ch).Within size c n := by
  refine .ite (.fail h) (.ite (.next h) (.ite (.next h) (.ite ?_ (.fail h))))
  cases methodSwitch ch e.parser.method e.parser.index with
  | none => exact .fail h
  | some m => exact .next h

theorem within_urlChar : (urlChar e ch).Within size c n :=
  .ite (.fail h) (.next h)

theorem within_reqSpacesBeforeUrl : (reqSpacesBeforeUrl e ch).Within size c n := by
  have hmark : (e.setMark .url).held size c ≤ n := Nat.le_trans (held_setMark nofun) h
  exact .ite (.next h) (.ite (within_urlChar hmark) (within_urlChar hmark))

theorem within_reqSchema : (reqSchema e ch).Within size c n :=
  .ite (.fail h) (within_urlChar h)

theorem within_reqHttpStart : (reqHttpStart e ch).Within size c n :=
  .ite (.next h) (.ite (.next h) (.ite (.next h) (.fail h)))

theorem within_reqHttpEnd : (reqHttpEnd e ch).Within size c n :=
  .ite (.next h) (.ite (.next h) (.fail h))

theorem within_headerValueStart : (headerValueStart e ch).Within size c n := by
  have hmark : (e.setMark .header_value).held size c ≤ n := Nat.le_trans (held_setMark nofun) h
  obtain ⟨⟨type, flags, state, header_state⟩, u, m, sc⟩ := e
  cases header_state
  case h_content_length => exact .ite (.fail hmark) (.ite (.fail hmark) (.next hmark))
  all_goals exact .next hmark

theorem within_headerValueDiscardWs : (headerValueDiscardWs e ch).Within size c n :=
  .ite (.next h) (.ite (.next h) (.ite (.next h) (within_headerValueStart h)))

theorem within_headerAlmostDone : (headerAlmostDone e ch).Within size c n :=
  .ite (.fail h) (.next h)

theorem within_chunkSizeStart : (chunkSizeStart e ch).Within size c n := by
  unfold chunkSizeStart
  cases unhex ch with
  | none => exact .fail h
  | some v => exact .next h

theorem within_chunkSize : (chunkSize e ch).Within size c n := by
  refine .ite (.next h) ?_
  cases unhex ch with
  | none => exact .ite (.next h) (.fail h)
  | some v => exact .ite (.fail h) (.next h)

include hS

theorem within_startReq : (startReq settings e ch).Within size c n := by
  refine .ite (.next h) (.ite (.fail h) ?_)
  cases methodOfFirst ch with
  | none => exact .fail h
  | some m => exact .notice hS h

theorem within_startReqOrRes : (startReqOrRes settings e ch).Within size c n :=
  .ite (.next h) (.ite (.notice hS h) (within_startReq hS h))

theorem within_startRes : (startRes settings e ch).Within size c n :=
  .ite (.next h) (.ite (.notice hS h) (.fail h))

theorem within_resStatus : (resStatus settings e ch).Within size c n :=
  .ite (.element hS h) (.ite (.element hS h) (.next h))

theorem within_resStatusStart : (resStatusStart settings e ch).Within size c n := by
  have hmark : (e.setMark .status).held size c ≤ n := Nat.le_trans (held_setMark nofun) h
  exact .ite (within_resStatus hS hmark) (.next hmark)

theorem within_resStatusCode : (resStatusCode settings e ch).Within size c n :=
  .ite (.ite (.next h) (.ite (within_resStatusStart hS h) (.fail h))) (.ite (.fail h) (.next h))

theorem within_reqUrl : (reqUrl settings e ch).Within size c n :=
  .ite (.element hS h) (.ite (.element hS h) (within_urlChar h))

theorem within_messageNext : (messageComplete settings e .next).Within size c n := by
  unfold messageComplete
  exact .notice hS h

theorem within_messageDone : (messageDone settings e).Within size c n := by
  unfold messageDone messageComplete
  exact .notify hS h fun _ he => .ite (.stop he) (.next he)

theorem within_headersDone : (headersDone settings e ch).Within size c n := by
  have hmessage : ∀ e', e'.held size c ≤ n → (messageComplete settings e' .next).Within size c n :=
    fun _ he => within_messageNext hS he
  refine .strict h (.ite (.notify hS h fun _ he => .stop he) ?_)
  refine .ite (hmessage _ h) (.ite (.next h) (.ite (hmessage _ h) (.ite (.next h) ?_)))
  exact .ite (hmessage _ h) (.next h)

theorem within_headersAlmostDone : (headersAlmostDone settings e ch).Within size c n := by
  refine .strict h (.ite (.notify hS h fun _ he => within_messageDone hS he) ?_)
  exact .ite (.fail h) (.headersComplete hS h fun _ he => within_headersDone hS he)

theorem within_headerFieldStart : (headerFieldStart settings e ch).Within size c n := by
  have hmark : (e.setMark .header_field).held size c ≤ n := Nat.le_trans (held_setMark nofun) h
  exact .ite (.next h) (.ite (within_headersAlmostDone hS h) (.ite (.fail h) (.next hmark)))

theorem within_headerField : (headerField settings e ch).Within size c n :=
  .ite (.next h) (.count h fun _ he => .ite (.element hS he) (.fail he))

theorem within_headerValue : (headerValue settings e ch).Within size c n := by
  refine .ite (.data hS (Nat.zero_le c) h fun _ he => .count he fun _ he' => .next he') ?_
  refine .ite (.count h fun _ he => .data hS (Nat.zero_le c) he fun _ he' =>
    within_headerAlmostDone he') ?_
  refine .ite (.fail h) ?_
  cases valueChar ch (lower ch) e.parser with
  | error err =>
      exact .fail h
  | ok p =>
      exact .next h

theorem within_headerValueLws : (headerValueLws settings e ch).Within size c n :=
  .ite (.ite (within_headerValueStart h) (within_headerValueStart h))
    (within_headerFieldStart hS h)

theorem within_headerValueDiscardLws : (headerValueDiscardLws settings e ch).Within size c n := by
  have hmark : (e.setMark .header_value).held size c ≤ n := Nat.le_trans (held_setMark nofun) h
  refine .ite (.next h) (.ite (.fail h) ?_)
  exact .data hS (Nat.zero_le c) hmark fun _ he => within_headerFieldStart hS he

theorem within_chunkSizeAlmostDone : (chunkSizeAlmostDone settings e ch).Within size c n :=
  .strict h (.ite (.notice hS h) (.notice hS h))

theorem within_chunkDataAlmostDone : (chunkDataAlmostDone settings e ch).Within size c n :=
  .strict h (.element hS h)

theorem within_chunkDataDone : (chunkDataDone settings e ch).Within size c n :=
  .strict h (.notice hS h)

end Cases

/-- Outside a body no round touches it. -/
theorem switch_outside (hS : settings.Grows size) (hout : e.parser.state.inBody = false)
    (h : e.held size c ≤ n) : (switch settings e ch).Within size c n := by
  unfold switch
  cases hst : e.parser.state <;> rw [hst] at hout <;> simp only
  case s_dead => exact .ite (.next h) (.fail h)
  case s_start_req_or_res => exact within_startReqOrRes hS h
  case s_res_or_resp_H => exact within_resOrRespH h
  case s_start_res => exact within_startRes hS h
  case s_res_H | s_res_HT | s_res_HTT | s_res_HTTP | s_res_line_almost_done | s_req_http_H |
      s_req_http_HT | s_req_http_HTT | s_req_http_HTTP | s_req_http_I | s_req_http_IC |
      s_header_value_discard_ws_almost_done =>
    exact within_expect h
  case s_res_http_major | s_res_http_minor | s_req_http_major | s_req_http_minor =>
    exact within_versionDigit h
  case s_res_http_dot | s_res_http_end | s_req_http_dot | s_req_line_almost_done =>
    exact .ite (.fail h) (.next h)
  case s_res_first_status_code => exact within_resFirstStatusCode h
  case s_res_status_code => exact within_resStatusCode hS h
  case s_res_status_start => exact within_resStatusStart hS h
  case s_res_status => exact within_resStatus hS h
  case s_start_req => exact within_startReq hS h
  case s_req_method => exact within_reqMethod h
  case s_req_spaces_before_url => exact within_reqSpacesBeforeUrl h
  case s_req_schema | s_req_schema_slash | s_req_schema_slash_slash | s_req_server_start =>
    exact within_reqSchema h
  case s_req_server | s_req_server_with_at | s_req_path | s_req_query_string_start |
      s_req_query_string | s_req_fragment_start | s_req_fragment =>
    exact within_reqUrl hS h
  case s_req_http_start => exact within_reqHttpStart h
  case s_req_http_end => exact within_reqHttpEnd h
  case s_header_field_start => exact within_headerFieldStart hS h
  case s_header_field => exact within_headerField hS h
  case s_header_value_discard_ws => exact within_headerValueDiscardWs h
  case s_header_value_discard_lws => exact within_headerValueDiscardLws hS h
  case s_header_value_start => exact within_headerValueStart h
  case s_header_value => exact within_headerValue hS h
  case s_header_value_lws => exact within_headerValueLws hS h
  case s_header_almost_done => exact within_headerAlmostDone h
  case s_headers_almost_done => exact within_headersAlmostDone hS h
  case s_headers_done => exact within_headersDone hS h
  case s_message_done => exact within_messageDone hS h
  case s_chunk_size_start => exact within_chunkSizeStart h
  case s_chunk_size => exact within_chunkSize h
  case s_chunk_parameters => exact .ite (.next h) (.next h)
  case s_chunk_size_almost_done => exact within_chunkSizeAlmostDone hS h
  case s_chunk_data_done => exact within_chunkDataDone hS h
  all_goals cases hout

theorem switch_within (hS : settings.Grows size) (h : e.held size 0 < n) :
    (switch settings e ch).Within size 1 n := by
  have h' : e.held size 1 ≤ n := Nat.le_trans held_one_le h
  have hmark : (e.setMark .body).held size 1 ≤ n := Nat.le_trans held_setMark_body h
  cases hin : e.parser.state.inBody with
  | false => exact switch_outside hS hin h'
  | true =>
      unfold switch
      cases hst : e.parser.state <;> rw [hst] at hin <;> simp only
      case s_body_identity =>
        refine .ite (.data hS (Nat.le_refl 1) hmark fun _ he => ?_) (.next hmark)
        exact within_messageDone hS he
      case s_body_identity_eof => exact .next hmark
      case s_chunk_data => exact .ite (.next hmark) (.next hmark)
      case s_chunk_data_almost_done => exact within_chunkDataAlmostDone hS h'
      all_goals cases hin

theorem turn_of_switch (h : e.held size c ≤ n)
    (hswitch : ∀ e' : Exec σ, e'.parser.state = e.parser.state → e'.user = e.user →
      e'.mark = e.mark → (switch settings e' ch).Within size c n) :
    (turn settings e ch).Within size c n := by
  unfold turn
  cases e.scan with
  | some k => exact hswitch _ rfl rfl rfl
  | none => exact .ite (.ite (.fail h) (hswitch _ rfl rfl rfl)) (hswitch _ rfl rfl rfl)

theorem turn_outside (hS : settings.Grows size) (hout : e.parser.state.inBody = false)
    (h : e.held size c ≤ n) : (turn settings e ch).Within size c n := by
  refine turn_of_switch h fun e' hst hu hm => switch_outside hS (hst ▸ hout) ?_
  rwa [Exec.held, hu, hm]

/-- A round adds one byte at most. -/
theorem turn_within (hS : settings.Grows size) (h : e.held size 0 < n) :
    (turn settings e ch).Within size 1 n := by
  refine turn_of_switch (Nat.le_trans held_one_le h) fun e' _ hu hm => switch_within hS ?_
  rwa [Exec.held, hu, hm]

/-! ## A call -/

theorem flush_within (hS : settings.Grows size) (h : e.held size 0 ≤ n) :
    (flush settings e).Within size 0 n := by
  have hleft : ∀ {d : Data} {k : Exec σ → Turn σ} {e' : Exec σ}, e'.held size 0 ≤ n →
      (∀ e'', e''.held size 0 ≤ n → (k e'').Within size 0 n) →
        (e'.callbackData settings d [] 0 k).Within size 0 n :=
    fun he hk => .data hS (Nat.le_refl 0) he hk
  exact hleft h fun _ h₁ => hleft h₁ fun _ h₂ => hleft h₂ fun _ h₃ => hleft h₃ fun _ h₄ =>
    .element hS h₄

theorem Turn.Within.result {a : Turn σ} (h : a.Within size c n) (pos : Nat) :
    size (a.result pos).user ≤ n := by
  cases a with
  | next e => exact Nat.le_trans (size_le_held size c e) h
  | stop e m => exact h

theorem endOfData_within (hS : settings.Grows size) (h : e.held size 0 ≤ n) (pos : Nat) :
    size (endOfData settings e pos).user ≤ n := by
  unfold endOfData
  cases e.scan with
  | none => exact (flush_within hS h).result pos
  | some k =>
      by_cases hover : maxHeaderSize < (e.parser.nread + k) % 2 ^ 32
      · simp only [Exec.countHeaderSize, Exec.modify, hover, if_true, Exec.fail]
        exact Nat.le_trans (size_le_held size 0 e) h
      · simp only [Exec.countHeaderSize, Exec.modify, hover, if_false]
        refine Turn.Within.result (flush_within hS ?_) pos
        exact h

/-- A round and the rest of the buffer. -/
theorem run_of_round {rest : List UInt8} {pos m : Nat} (h : (turn settings e ch).Within size 1 n)
    (hrest : ∀ e', size (run settings e' (pos + 1) rest).user ≤ e'.held size 0 + m) :
    size (run settings e pos (ch :: rest)).user ≤ n + m := by
  unfold run
  cases hres : turn settings e ch with
  | stop e' _ =>
      rw [hres] at h
      exact Nat.le_trans h (Nat.le_add_right n m)
  | next e' =>
      rw [hres] at h
      have hle := hrest (e'.advance ch)
      rw [held_advance] at hle
      exact Nat.le_trans hle (Nat.add_le_add_right h m)

theorem run_within (hS : settings.Grows size) (bs : List UInt8) (pos : Nat) :
    size (run settings e pos bs).user ≤ e.held size 0 + bs.length := by
  induction bs generalizing e pos with
  | nil => exact endOfData_within hS (Nat.le_refl _) pos
  | cons ch rest ih =>
      have hround : (turn settings e ch).Within size 1 (e.held size 0 + 1) :=
        turn_within hS (Nat.lt_succ_self _)
      have hrest := fun e' => ih (e := e') (pos + 1)
      refine Nat.le_trans (run_of_round hround hrest) ?_
      rw [List.length_cons]
      omega

theorem held_start (p : Parser) (u : σ) : (Exec.start p u).held size c = size u :=
  held_of_none (if_neg p.state.element_ne_body)

/-- A call gives `on_body` no more bytes than it gets. -/
theorem execute_grows (hS : settings.Grows size) (p : Parser) (u : σ) (bs : List UInt8) :
    size (execute settings p u bs).user ≤ size u + bs.length := by
  have hstart : (Exec.start p u).held size 0 = size u := held_start p u
  unfold execute
  split
  · exact Nat.le_add_right _ _
  · split
    · -- the end of the stream may complete a message
      refine Nat.le_trans ?_ (Nat.le_add_right _ _)
      unfold executeEof
      split
      · exact (Turn.Within.notice hS (Nat.le_of_eq hstart)).result 0
      all_goals exact Nat.le_refl _
    · rw [← hstart]
      exact run_within hS bs 0

/-- One byte that comes outside a body is none of it. -/
theorem execute_outside (hS : settings.Grows size) {p : Parser} (hout : p.state.inBody = false)
    (u : σ) (ch : UInt8) : size (execute settings p u [ch]).user ≤ size u := by
  unfold execute
  split
  · exact Nat.le_refl _
  · rw [if_neg (List.cons_ne_nil ch [])]
    have hround : (turn settings (.start p u) ch).Within size 1 (size u) :=
      turn_outside hS hout (Nat.le_of_eq (held_start p u))
    exact run_of_round (m := 0) hround fun e' => endOfData_within hS (Nat.le_refl _) 1

end Gxh.HttpParser
