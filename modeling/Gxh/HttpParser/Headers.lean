import Gxh.HttpParser.Segments

/-!
# Header lines of responses

What a round of `http_parser_execute` on a response does to the header line it is in, and which
callbacks it makes on the way: `turn_headers`. A field name is reported at its colon, a value at
the end of its line; on a folded line the value goes on and is reported again.
-/

namespace Gxh.HttpParser

variable {σ : Type} {settings : Settings σ} {e : Exec σ} {ch : UInt8}

/-- Where a parser stands in a header line. -/
inductive Phase
  | outside
  /-- in the field name, of which these bytes have been read in this call -/
  | name (l : List UInt8)
  /-- between the colon and the end of the value -/
  | value
  /-- past the end of the value, which the next line may continue -/
  | after

def State.phase (l : List UInt8) : State → Phase
  | .s_header_field => .name l
  | .s_header_value_discard_ws | .s_header_value_discard_ws_almost_done
  | .s_header_value_discard_lws | .s_header_value_start | .s_header_value => .value
  | .s_header_almost_done | .s_header_value_lws => .after
  | _ => .outside

def Exec.phase (e : Exec σ) : Phase := e.parser.state.phase ((e.mark .header_field).getD [])

/-- The states of a parser of responses. -/
def State.ofResponse : State → Bool
  | .s_start_req_or_res | .s_res_or_resp_H | .s_start_req | .s_req_method
  | .s_req_spaces_before_url | .s_req_schema | .s_req_schema_slash | .s_req_schema_slash_slash
  | .s_req_server_start | .s_req_server | .s_req_server_with_at | .s_req_path
  | .s_req_query_string_start | .s_req_query_string | .s_req_fragment_start | .s_req_fragment
  | .s_req_http_start | .s_req_http_H | .s_req_http_HT | .s_req_http_HTT | .s_req_http_HTTP
  | .s_req_http_I | .s_req_http_IC | .s_req_http_major | .s_req_http_dot | .s_req_http_minor
  | .s_req_http_end | .s_req_line_almost_done => false
  | _ => true

/-- Callbacks other than those of header fields and values. -/
inductive Others (settings : Settings σ) (u : σ) : σ → Prop
  | none : Others settings u u
  | notify {u' : σ} (n : Notice) (p : Parser) : Others settings u u' →
      Others settings u (settings.onNotify n p u').1
  | data {u' : σ} (d : Data) (p : Parser) (l : List UInt8) : d ≠ .header_field →
      d ≠ .header_value → Others settings u u' → Others settings u (settings.onData d p l u').1

/-- All that a round on `ch` can do. -/
inductive HeaderStep (settings : Settings σ) (ch : UInt8) : Phase → σ → Phase → σ → Prop
  | outside {u u' : σ} : Others settings u u' → HeaderStep settings ch .outside u .outside u'
  | start {u : σ} : token ch ≠ 0 → HeaderStep settings ch .outside u (.name [ch]) u
  | grow {l : List UInt8} {u : σ} : token ch ≠ 0 →
      HeaderStep settings ch (.name l) u (.name (l ++ [ch])) u
  | field {l : List UInt8} {u : σ} (p : Parser) : ch = ':' →
      HeaderStep settings ch (.name l) u .value (settings.onData .header_field p l u).1
  | value {u : σ} : HeaderStep settings ch .value u .value u
  | report {u : σ} (p : Parser) (l : List UInt8) :
      HeaderStep settings ch .value u .after (settings.onData .header_value p l u).1
  | after {u : σ} : HeaderStep settings ch .after u .after u
  | fold {u : σ} : HeaderStep settings ch .after u .value u
  | leave {u u' : σ} : Others settings u u' → HeaderStep settings ch .after u .outside u'
  | again {u : σ} : token ch ≠ 0 → HeaderStep settings ch .after u (.name [ch]) u
  /-- an empty value is reported on the line after it -/
  | empty_leave {u u' : σ} (p : Parser) (l : List UInt8) :
      Others settings (settings.onData .header_value p l u).1 u' →
      HeaderStep settings ch .value u .outside u'
  | empty_again {u : σ} (p : Parser) (l : List UInt8) : token ch ≠ 0 →
      HeaderStep settings ch .value u (.name [ch]) (settings.onData .header_value p l u).1

/-- The locals after a round on `ch` that goes on: `R` holds of the phase and the object. -/
structure Lands (R : Phase → σ → Prop) (ch : UInt8) (e : Exec σ) : Prop where
  type : e.parser.type = .HTTP_RESPONSE
  state : e.parser.state.ofResponse = true
  lands : R (e.advance ch).phase e.user

/-- What a round leaves, if it meets no error. -/
def Turn.Leaves (P : Exec σ → Prop) : Turn σ → Prop
  | .next e => P e
  | .stop e _ => e.parser.http_errno = .HPE_OK → P e

namespace Turn.Leaves

variable {P : Exec σ → Prop} {k : Exec σ → Turn σ}

theorem fail {err : HttpErrno} (h : err ≠ .HPE_OK) : (e.fail err).Leaves P :=
  fun hok => absurd hok h

theorem ite {c : Prop} [Decidable c] {a b : Turn σ} (ha : c → a.Leaves P) (hb : ¬c → b.Leaves P) :
    (if c then a else b).Leaves P := by
  by_cases hc : c
  · rw [if_pos hc]
    exact ha hc
  · rw [if_neg hc]
    exact hb hc

theorem strict {c : Bool} {a : Turn σ} (h : a.Leaves P) : (e.strictCheck c a).Leaves P :=
  ite (fun _ => fail (by decide)) fun _ => h

theorem count {v : Nat} (h : ∀ n, (k (e.modify fun p => { p with nread := n })).Leaves P) :
    (e.countHeaderSize v k).Leaves P :=
  ite (fun _ => fail (by decide)) fun _ => h _

theorem notify {n : Notice} {adv : Nat}
    (h : (k { e with user := (settings.onNotify n e.parser e.user).1 }).Leaves P) :
    (e.callbackNotify settings n adv k).Leaves P :=
  ite (fun _ hok => by cases hok) fun _ => h

theorem data {d : Data} {l t : List UInt8} {adv : Nat} (hm : e.mark d = some l)
    (h : (k { e with
      user := (settings.onData d e.parser (l ++ t) e.user).1
      mark := Function.update e.mark d none }).Leaves P) :
    (e.callbackData settings d t adv k).Leaves P := by
  rw [Exec.callbackData_some hm]
  exact ite (fun _ hok => by cases hok) fun _ => h

/-- A callback that is none of a header, if it is made at all. -/
theorem other {u : σ} {d : Data} {t : List UInt8} {adv : Nat} (hf : d ≠ .header_field)
    (hv : d ≠ .header_value) (hu : Others settings u e.user)
    (h : ∀ e', e'.parser = e.parser → Others settings u e'.user → (k e').Leaves P) :
    (e.callbackData settings d t adv k).Leaves P := by
  cases hm : e.mark d with
  | none =>
      rw [Exec.callbackData_none hm]
      exact h e rfl hu
  | some l => exact data hm (h _ rfl (.data d e.parser (l ++ t) hf hv hu))

theorem headersComplete {u : σ} (hset : settings.KeepsBody) (hu : Others settings u e.user)
    (h : ∀ e', e'.parser = e.parser → Others settings u e'.user → (k e').Leaves P) :
    (headersComplete settings e k).Leaves P := by
  unfold HttpParser.headersComplete
  simp only [hset e.parser e.user, if_true]
  exact h _ rfl (.notify .headers_complete e.parser hu)

end Turn.Leaves

open Turn (Leaves)

/-! ## The cases -/

section Outside

variable {R : Phase → σ → Prop} {u : σ} (hout : ∀ u', Others settings u u' → R .outside u')
include hout

/-- A round that ends outside header lines. -/
theorem lands_outside {e' : Exec σ} {s : State} (ht : e'.parser.type = .HTTP_RESPONSE)
    (hu : Others settings u e'.user) (hs : e'.parser.state = s) (hr : s.ofResponse = true)
    (hph : ∀ l, s.phase l = .outside) : Lands R ch e' where
  type := ht
  state := hs ▸ hr
  lands := by
    rw [Exec.phase, show (e'.advance ch).parser.state = s from hs, hph]
    exact hout _ hu

theorem leaves_messageComplete {k : Exec σ → Turn σ} (ht : e.parser.type = .HTTP_RESPONSE)
    (hu : Others settings u e.user)
    (hk : ∀ e', Lands R ch e' → (k e').Leaves (Lands R ch)) :
    (messageComplete settings e k).Leaves (Lands R ch) := by
  apply Leaves.notify
  apply hk
  have hu' := hu.notify .message_complete (e.goto e.parser.newMessage).parser
  have hnew : e.parser.newMessage = .s_start_res ∨ e.parser.newMessage = .s_dead := by
    unfold Parser.newMessage
    rw [ht]
    split
    · exact .inl rfl
    · exact .inr rfl
  rcases hnew with hs | hs
  · exact lands_outside hout ht hu' hs rfl fun _ => rfl
  · exact lands_outside hout ht hu' hs rfl fun _ => rfl

theorem leaves_messageDone (ht : e.parser.type = .HTTP_RESPONSE)
    (hu : Others settings u e.user) : (messageDone settings e).Leaves (Lands R ch) := by
  apply leaves_messageComplete hout ht hu
  intro e' h
  exact .ite (fun _ _ => h) fun _ => h

theorem leaves_headersDone (ht : e.parser.type = .HTTP_RESPONSE)
    (hu : Others settings u e.user) : (headersDone settings e ch).Leaves (Lands R ch) := by
  have hcomplete : (messageComplete settings (e.modify fun p => { p with nread := 0 })
      .next).Leaves (Lands R ch) := leaves_messageComplete hout ht hu fun _ h => h
  apply Leaves.strict
  refine .ite (fun _ => leaves_messageComplete hout ht hu fun _ h _ => h) fun _ => ?_
  refine .ite (fun _ => hcomplete) fun _ => ?_
  refine .ite (fun _ => lands_outside hout ht hu rfl rfl fun _ => rfl) fun _ => ?_
  refine .ite (fun _ => hcomplete) fun _ => ?_
  refine .ite (fun _ => lands_outside hout ht hu rfl rfl fun _ => rfl) fun _ => ?_
  apply Leaves.ite
  · exact fun _ => hcomplete
  · exact fun _ => lands_outside hout ht hu rfl rfl fun _ => rfl

theorem leaves_headersAlmostDone (hset : settings.KeepsBody)
    (ht : e.parser.type = .HTTP_RESPONSE) (hu : Others settings u e.user) :
    (headersAlmostDone settings e ch).Leaves (Lands R ch) := by
  apply Leaves.strict
  apply Leaves.ite
  · intro _
    apply Leaves.notify
    exact leaves_messageDone hout ht (hu.notify _ _)
  · intro _
    refine .ite (fun _ => .fail (by decide)) fun _ => ?_
    apply Leaves.headersComplete (u := u) hset
    · exact hu
    · intro e' hp hu'
      refine leaves_headersDone hout ?_ hu'
      rw [hp]
      exact ht

/-- The start of a line: another header or the end of the headers. -/
theorem leaves_headerFieldStart (hset : settings.KeepsBody)
    (ht : e.parser.type = .HTTP_RESPONSE) (hu : e.user = u) (hm : e.mark .header_field = none)
    (hname : token ch ≠ 0 → R (.name [ch]) u) :
    (headerFieldStart settings e ch).Leaves (Lands R ch) := by
  subst hu
  refine .ite (fun _ => lands_outside hout ht .none rfl rfl fun _ => rfl) fun _ => ?_
  refine .ite (fun _ => leaves_headersAlmostDone hout hset ht .none) fun _ => ?_
  refine .ite (fun _ => .fail (by decide)) fun hc => ?_
  refine ⟨ht, rfl, ?_⟩
  have hphase : ∀ h : HeaderState, Exec.phase ((((e.setMark .header_field).goto
      .s_header_field).modify fun p => { p with index := 0, header_state := h }).advance ch) =
      .name [ch] := by
    intro h
    simp [Exec.phase, State.phase, Exec.advance, Exec.setMark, Exec.goto, Exec.modify, hm]
  exact hphase _ ▸ hname hc

theorem leaves_startRes (ht : e.parser.type = .HTTP_RESPONSE)
    (hu : Others settings u e.user) (hs : e.parser.state = .s_start_res) :
    (startRes settings e ch).Leaves (Lands R ch) := by
  refine .ite (fun _ => lands_outside hout ht hu hs rfl fun _ => rfl) fun _ => ?_
  apply Leaves.ite
  · intro _
    apply Leaves.notify
    exact lands_outside hout ht (hu.notify _ _) rfl rfl fun _ => rfl
  · exact fun _ => .fail (by decide)

theorem leaves_versionDigit {set : Nat → Parser → Parser} {s : State}
    (ht : ∀ v, (set v e.parser).type = .HTTP_RESPONSE) (hu : Others settings u e.user)
    (hr : s.ofResponse = true) (hph : ∀ l, s.phase l = .outside) :
    (versionDigit e ch set s).Leaves (Lands R ch) := by
  apply Leaves.ite
  · exact fun _ => .fail (by decide)
  · exact fun _ => lands_outside hout (ht _) hu rfl hr hph

theorem leaves_resFirstStatusCode (ht : e.parser.type = .HTTP_RESPONSE)
    (hu : Others settings u e.user) (hs : e.parser.state = .s_res_first_status_code) :
    (resFirstStatusCode e ch).Leaves (Lands R ch) := by
  apply Leaves.ite
  · intro _
    exact .ite (fun _ => lands_outside hout ht hu hs rfl fun _ => rfl) fun _ => .fail (by decide)
  · exact fun _ => lands_outside hout ht hu rfl rfl fun _ => rfl

/-- A data callback of no header at the end of a case. -/
theorem leaves_other {d : Data} {s : State} (ht : e.parser.type = .HTTP_RESPONSE)
    (hu : Others settings u e.user) (hf : d ≠ .header_field) (hv : d ≠ .header_value)
    (hr : s.ofResponse = true) (hph : ∀ l, s.phase l = .outside) :
    ((e.goto s).callbackData settings d [] 1 .next).Leaves (Lands R ch) := by
  refine .other hf hv hu fun e' hp hu' => ?_
  refine lands_outside hout ?_ hu' (congrArg Parser.state hp) hr hph
  rw [hp]
  exact ht

theorem leaves_resStatus (ht : e.parser.type = .HTTP_RESPONSE)
    (hu : Others settings u e.user) (hs : e.parser.state = .s_res_status) :
    (resStatus settings e ch).Leaves (Lands R ch) := by
  refine .ite (fun _ => leaves_other hout ht hu nofun nofun rfl fun _ => rfl) fun _ => ?_
  refine .ite (fun _ => leaves_other hout ht hu nofun nofun rfl fun _ => rfl) fun _ => ?_
  exact lands_outside hout ht hu hs rfl fun _ => rfl

theorem leaves_resStatusStart (ht : e.parser.type = .HTTP_RESPONSE)
    (hu : Others settings u e.user) : (resStatusStart settings e ch).Leaves (Lands R ch) := by
  apply Leaves.ite
  · exact fun _ => leaves_resStatus hout ht hu rfl
  · exact fun _ => lands_outside hout ht hu rfl rfl fun _ => rfl

theorem leaves_resStatusCode (ht : e.parser.type = .HTTP_RESPONSE)
    (hu : Others settings u e.user) (hs : e.parser.state = .s_res_status_code) :
    (resStatusCode settings e ch).Leaves (Lands R ch) := by
  apply Leaves.ite
  · intro _
    refine .ite (fun _ => lands_outside hout ht hu rfl rfl fun _ => rfl) fun _ => ?_
    exact .ite (fun _ => leaves_resStatusStart hout ht hu) fun _ => .fail (by decide)
  · intro _
    exact .ite (fun _ => .fail (by decide)) fun _ => lands_outside hout ht hu hs rfl fun _ => rfl

theorem leaves_bodyIdentity (ht : e.parser.type = .HTTP_RESPONSE)
    (hu : Others settings u e.user) (hs : e.parser.state = .s_body_identity) :
    (bodyIdentity settings e ch).Leaves (Lands R ch) := by
  apply Leaves.ite
  · intro _
    refine .other nofun nofun hu fun e' hp hu' => ?_
    refine leaves_messageDone hout ?_ hu'
    rw [hp]
    exact ht
  · exact fun _ => lands_outside hout ht hu hs rfl fun _ => rfl

theorem leaves_chunkSizeStart (ht : e.parser.type = .HTTP_RESPONSE)
    (hu : Others settings u e.user) : (chunkSizeStart e ch).Leaves (Lands R ch) := by
  unfold chunkSizeStart
  cases unhex ch with
  | none => exact .fail (by decide)
  | some v => exact lands_outside hout ht hu rfl rfl fun _ => rfl

theorem leaves_chunkSize (ht : e.parser.type = .HTTP_RESPONSE)
    (hu : Others settings u e.user) (hs : e.parser.state = .s_chunk_size) :
    (chunkSize e ch).Leaves (Lands R ch) := by
  refine .ite (fun _ => lands_outside hout ht hu rfl rfl fun _ => rfl) fun _ => ?_
  cases unhex ch with
  | none =>
      exact .ite (fun _ => lands_outside hout ht hu rfl rfl fun _ => rfl) fun _ => .fail (by decide)
  | some v =>
      exact .ite (fun _ => .fail (by decide)) fun _ => lands_outside hout ht hu hs rfl fun _ => rfl

theorem leaves_chunkSizeAlmostDone (ht : e.parser.type = .HTTP_RESPONSE)
    (hu : Others settings u e.user) :
    (chunkSizeAlmostDone settings e ch).Leaves (Lands R ch) := by
  apply Leaves.strict
  apply Leaves.ite
  · intro _
    apply Leaves.notify
    exact lands_outside hout ht (hu.notify _ _) rfl rfl fun _ => rfl
  · intro _
    apply Leaves.notify
    exact lands_outside hout ht (hu.notify _ _) rfl rfl fun _ => rfl

theorem leaves_chunkData (ht : e.parser.type = .HTTP_RESPONSE)
    (hu : Others settings u e.user) (hs : e.parser.state = .s_chunk_data) :
    (chunkData e).Leaves (Lands R ch) := by
  apply Leaves.ite
  · exact fun _ => lands_outside hout ht hu rfl rfl fun _ => rfl
  · exact fun _ => lands_outside hout ht hu hs rfl fun _ => rfl

theorem leaves_chunkDataDone (ht : e.parser.type = .HTTP_RESPONSE)
    (hu : Others settings u e.user) :
    (chunkDataDone settings e ch).Leaves (Lands R ch) := by
  apply Leaves.strict
  apply Leaves.notify
  exact lands_outside hout ht (hu.notify _ _) rfl rfl fun _ => rfl

end Outside

section Inside

theorem Parser.finishHeader_type (p : Parser) : p.finishHeader.type = p.type := by
  unfold Parser.finishHeader
  split <;> rfl

variable {R : Phase → σ → Prop}

theorem leaves_headerValueStart (ht : e.parser.type = .HTTP_RESPONSE) (hR : R .value e.user) :
    (headerValueStart e ch).Leaves (Lands R ch) := by
  obtain ⟨⟨type, flags, state, header_state⟩, u, m, sc⟩ := e
  cases header_state
  case h_content_length =>
    refine .ite (fun _ => .fail (by decide)) fun _ => ?_
    exact .ite (fun _ => .fail (by decide)) fun _ => ⟨ht, rfl, hR⟩
  all_goals exact ⟨ht, rfl, hR⟩

theorem leaves_headerValueDiscardWs (ht : e.parser.type = .HTTP_RESPONSE)
    (hs : e.parser.state = .s_header_value_discard_ws) (hR : R .value e.user) :
    (headerValueDiscardWs e ch).Leaves (Lands R ch) := by
  apply Leaves.ite
  · intro _
    refine ⟨ht, by rw [hs]; rfl, ?_⟩
    rw [Exec.phase, show (e.advance ch).parser.state = _ from hs]
    exact hR
  · intro _
    refine .ite (fun _ => ⟨ht, rfl, hR⟩) fun _ => ?_
    refine .ite (fun _ => ⟨ht, rfl, hR⟩) fun _ => ?_
    exact leaves_headerValueStart ht hR

theorem leaves_headerField (ht : e.parser.type = .HTTP_RESPONSE)
    (hs : e.parser.state = .s_header_field) {l : List UInt8} (hm : e.mark .header_field = some l)
    (hgrow : token ch ≠ 0 → R (.name (l ++ [ch])) e.user)
    (hfield : ∀ p, ch = ':' → R .value (settings.onData .header_field p l e.user).1) :
    (headerField settings e ch).Leaves (Lands R ch) := by
  have hkeeps := fieldChar_keeps ch (token ch) e.parser
  apply Leaves.ite
  · intro hc
    refine ⟨hkeeps.type.trans ht, ?_, ?_⟩
    · show (fieldChar ch (token ch) e.parser).state.ofResponse = true
      rw [hkeeps.state, hs]
      rfl
    · show R (State.phase (((e.mark .header_field).map (· ++ [ch])).getD [])
        (fieldChar ch (token ch) e.parser).state) e.user
      rw [hkeeps.state, hs, hm]
      exact hgrow hc
  · intro _
    apply Leaves.count
    intro n
    refine .ite (fun hcolon => ?_) fun _ => .fail (by decide)
    apply Leaves.data (l := l)
    · exact hm
    · refine ⟨ht, rfl, ?_⟩
      rw [List.append_nil]
      exact hfield _ hcolon

theorem leaves_headerAlmostDone (ht : e.parser.type = .HTTP_RESPONSE) (hR : R .after e.user) :
    (headerAlmostDone e ch).Leaves (Lands R ch) :=
  .ite (fun _ => .fail (by decide)) fun _ => ⟨ht, rfl, hR⟩

theorem leaves_headerValue (ht : e.parser.type = .HTTP_RESPONSE)
    (hs : e.parser.state = .s_header_value) {l : List UInt8} (hm : e.mark .header_value = some l)
    (hvalue : R .value e.user)
    (hreport : ∀ p, R .after (settings.onData .header_value p l e.user).1) :
    (headerValue settings e ch).Leaves (Lands R ch) := by
  apply Leaves.ite
  · intro _
    apply Leaves.data (l := l)
    · exact hm
    · apply Leaves.count
      intro n
      refine ⟨ht, rfl, ?_⟩
      rw [List.append_nil]
      exact hreport _
  · intro _
    apply Leaves.ite
    · intro _
      apply Leaves.count
      intro n
      apply Leaves.data (l := l)
      · exact hm
      · refine leaves_headerAlmostDone ?_ ?_
        · exact ht
        · rw [List.append_nil]
          exact hreport _
    · intro _
      refine .ite (fun _ => .fail (by decide)) fun _ => ?_
      have hk := valueChar_keeps ch (lower ch) e.parser
      cases hv : valueChar ch (lower ch) e.parser with
      | error err =>
          rw [hv] at hk
          exact .fail hk
      | ok p =>
          rw [hv] at hk
          refine ⟨hk.type.trans ht, ?_, ?_⟩
          · show p.state.ofResponse = true
            rw [hk.state, hs]
            rfl
          · show R (State.phase _ p.state) e.user
            rw [hk.state, hs]
            exact hvalue

theorem leaves_headerValueLws (hset : settings.KeepsBody) (ht : e.parser.type = .HTTP_RESPONSE)
    (hm : e.mark .header_field = none) (hfold : R .value e.user)
    (hout : ∀ u', Others settings e.user u' → R .outside u')
    (hname : token ch ≠ 0 → R (.name [ch]) e.user) :
    (headerValueLws settings e ch).Leaves (Lands R ch) := by
  apply Leaves.ite
  · intro _
    apply Leaves.ite
    · exact fun _ => leaves_headerValueStart ht hfold
    · exact fun _ => leaves_headerValueStart ht hfold
  · intro _
    refine leaves_headerFieldStart hout hset ?_ rfl hm hname
    show e.parser.finishHeader.type = .HTTP_RESPONSE
    rw [Parser.finishHeader_type]
    exact ht

theorem leaves_headerValueDiscardLws (hset : settings.KeepsBody)
    (ht : e.parser.type = .HTTP_RESPONSE) (hm : e.mark .header_field = none)
    (hvalue : R .value e.user)
    (hout : ∀ p l u', Others settings (settings.onData .header_value p l e.user).1 u' →
      R .outside u')
    (hname : ∀ p l, token ch ≠ 0 →
      R (.name [ch]) (settings.onData .header_value p l e.user).1) :
    (headerValueDiscardLws settings e ch).Leaves (Lands R ch) := by
  refine .ite (fun _ => ⟨ht, rfl, hvalue⟩) fun _ => ?_
  refine .ite (fun _ => .fail (by decide)) fun _ => ?_
  obtain ⟨l, hl⟩ := Option.isSome_iff_exists.mp
    ((e.modify Parser.finishHeader).setMark_isSome .header_value)
  apply Leaves.data (l := l)
  · exact hl
  · refine leaves_headerFieldStart (hout _ _) hset ?_ rfl ?_ (hname _ _)
    · show e.parser.finishHeader.type = .HTTP_RESPONSE
      rw [Parser.finishHeader_type]
      exact ht
    · simp [Exec.setMark, Exec.goto, Exec.modify, hm]

end Inside

/-! ## Rounds -/

/-- Locals of a call on a response. -/
structure Exec.OnResponse (e : Exec σ) : Prop where
  steady : e.Steady
  type : e.parser.type = .HTTP_RESPONSE
  state : e.parser.state.ofResponse = true

theorem leaves_switch (hset : settings.KeepsBody) (h : e.OnResponse) :
    (switch settings e ch).Leaves (Lands (HeaderStep settings ch e.phase e.user) ch) := by
  have ht := h.type
  have hs := h.state
  have hphase : e.phase = e.parser.state.phase ((e.mark .header_field).getD []) := rfl
  have hmark : e.parser.state.element ≠ some .header_field → e.mark .header_field = none :=
    fun hel => h.steady.mark_eq_none hel nofun
  -- a round outside the header lines does not move the phase
  have hout : ∀ u', Others settings e.user u' →
      HeaderStep settings ch .outside e.user .outside u' :=
    fun u' => .outside
  rw [hphase]
  unfold switch
  cases hst : e.parser.state <;> rw [hst] at hs hmark <;> try cases hs
  case s_dead =>
    exact .ite (fun _ => lands_outside hout ht .none hst rfl fun _ => rfl) fun _ =>
      .fail (by decide)
  case s_start_res => exact leaves_startRes hout ht .none hst
  case s_res_H | s_res_HT | s_res_HTT | s_res_HTTP | s_res_line_almost_done =>
    exact .strict (lands_outside hout ht .none rfl rfl fun _ => rfl)
  case s_res_http_major | s_res_http_minor =>
    exact leaves_versionDigit hout (fun _ => ht) .none rfl fun _ => rfl
  case s_res_http_dot | s_res_http_end =>
    exact .ite (fun _ => .fail (by decide)) fun _ =>
      lands_outside hout ht .none rfl rfl fun _ => rfl
  case s_res_first_status_code => exact leaves_resFirstStatusCode hout ht .none hst
  case s_res_status_code => exact leaves_resStatusCode hout ht .none hst
  case s_res_status_start => exact leaves_resStatusStart hout ht .none
  case s_res_status => exact leaves_resStatus hout ht .none hst
  case s_header_field_start =>
    exact leaves_headerFieldStart hout hset ht rfl (hmark nofun) .start
  case s_header_field =>
    obtain ⟨l, hl⟩ := Option.isSome_iff_exists.mp
      ((h.steady.marks .header_field nofun).mpr (by rw [hst]; rfl))
    rw [hl]
    exact leaves_headerField ht hst hl .grow fun p => .field p
  case s_header_value_discard_ws => exact leaves_headerValueDiscardWs ht hst .value
  case s_header_value_discard_ws_almost_done => exact .strict ⟨ht, rfl, .value⟩
  case s_header_value_discard_lws =>
    exact leaves_headerValueDiscardLws hset ht (hmark nofun) .value
      (fun p l u' => .empty_leave p l) fun p l => .empty_again p l
  case s_header_value_start => exact leaves_headerValueStart ht .value
  case s_header_value =>
    obtain ⟨l, hl⟩ := Option.isSome_iff_exists.mp
      ((h.steady.marks .header_value nofun).mpr (by rw [hst]; rfl))
    exact leaves_headerValue ht hst hl .value fun p => .report p l
  case s_header_value_lws =>
    exact leaves_headerValueLws hset ht (hmark nofun) .fold (fun u' => .leave) .again
  case s_header_almost_done => exact leaves_headerAlmostDone ht .after
  case s_headers_almost_done => exact leaves_headersAlmostDone hout hset ht .none
  case s_headers_done => exact leaves_headersDone hout ht .none
  case s_body_identity => exact leaves_bodyIdentity hout ht .none hst
  case s_body_identity_eof => exact lands_outside hout ht .none hst rfl fun _ => rfl
  case s_message_done => exact leaves_messageDone hout ht .none
  case s_chunk_size_start => exact leaves_chunkSizeStart hout ht .none
  case s_chunk_size => exact leaves_chunkSize hout ht .none hst
  case s_chunk_parameters =>
    exact .ite (fun _ => lands_outside hout ht .none rfl rfl fun _ => rfl) fun _ =>
      lands_outside hout ht .none hst rfl fun _ => rfl
  case s_chunk_size_almost_done => exact leaves_chunkSizeAlmostDone hout ht .none
  case s_chunk_data => exact leaves_chunkData hout ht .none hst
  case s_chunk_data_almost_done =>
    exact .strict (leaves_other hout ht .none nofun nofun rfl fun _ => rfl)
  case s_chunk_data_done => exact leaves_chunkDataDone hout ht .none

theorem leaves_turn (hset : settings.KeepsBody) (h : e.OnResponse) (ch : UInt8) :
    (turn settings e ch).Leaves (Lands (HeaderStep settings ch e.phase e.user) ch) := by
  unfold turn
  cases hsc : e.scan with
  | some k =>
      have hscan := h.steady.scan (by rw [hsc]; rfl)
      exact leaves_switch hset ⟨h.steady.scanning rfl rfl rfl hscan, h.type, h.state⟩
  | none =>
      apply Leaves.ite
      · intro _
        apply Leaves.count
        intro n
        exact leaves_switch hset
          ⟨⟨h.steady.ok, h.steady.marks, h.steady.body, h.steady.scan⟩, h.type, h.state⟩
      · exact fun _ => leaves_switch hset h

/-- A round that goes on is one of the steps, and leaves the locals of a response. -/
theorem turn_headers (hset : settings.KeepsBody) (h : e.OnResponse) {e' : Exec σ}
    (ht : turn settings e ch = .next e') :
    (e'.advance ch).OnResponse ∧
      HeaderStep settings ch e.phase e.user (e'.advance ch).phase e'.user := by
  have hsound := turn_sound (hom_bare settings) hset h.steady ch
  have hleaves := leaves_turn hset h ch
  rw [ht] at hsound hleaves
  exact ⟨⟨(hsound.steady e' rfl).advance ch, hleaves.type, hleaves.state⟩, hleaves.lands⟩

/-- So is one that ends the call without an error. -/
theorem turn_stop_headers (hset : settings.KeepsBody) (h : e.OnResponse) {e' : Exec σ} {n : Nat}
    (ht : turn settings e ch = .stop e' n) (hok : e'.parser.http_errno = .HPE_OK) :
    HeaderStep settings ch e.phase e.user (e'.advance ch).phase e'.user := by
  have hleaves := leaves_turn hset h ch
  rw [ht] at hleaves
  exact (hleaves hok).lands

/-- What every step keeps holds after all the rounds. -/
theorem walk_headers {Q : Phase → σ → Prop} (hset : settings.KeepsBody)
    (hstep : ∀ ch ph u ph' u', HeaderStep settings ch ph u ph' u' → Q ph u → Q ph' u')
    {xs : List UInt8} {e₁ : Exec σ} (h : e.OnResponse) (hwalk : walk settings e xs = some e₁)
    (hQ : Q e.phase e.user) : e₁.OnResponse ∧ Q e₁.phase e₁.user := by
  induction xs generalizing e with
  | nil =>
      cases hwalk
      exact ⟨h, hQ⟩
  | cons ch rest ih =>
      simp only [walk] at hwalk
      cases ht : turn settings e ch with
      | stop e₂ n =>
          rw [ht] at hwalk
          cases hwalk
      | next e₂ =>
          rw [ht] at hwalk
          obtain ⟨h₂, hs⟩ := turn_headers hset h ht
          exact ih h₂ hwalk (hstep ch _ _ _ _ hs hQ)

theorem State.phase_name {s : State} {l l' : List UInt8} (h : s.phase l = .name l') :
    s = .s_header_field := by
  cases s <;> first | rfl | cases h

theorem State.clear_of_outside {s : State} {l : List UInt8} (hs : s.ofResponse = true)
    (h : s.phase l = .outside) : s.clear = true := by
  cases s <;> first | rfl | (cases h; done) | cases hs

/-- A field name ends at a colon. -/
theorem exists_colon (hset : settings.KeepsBody) {xs : List UInt8} {e₁ : Exec σ}
    (h : e.OnResponse) (hwalk : walk settings e xs = some e₁) {l : List UInt8}
    (hname : e.phase = .name l) (hend : e₁.phase = .outside) :
    ∃ pre post e₂, xs = pre ++ (':' : UInt8) :: post ∧ walk settings e pre = some e₂ ∧
      e₂.parser.state = .s_header_field := by
  induction xs generalizing e l with
  | nil =>
      cases hwalk
      rw [hname] at hend
      cases hend
  | cons ch rest ih =>
      by_cases hcolon : ch = (':' : UInt8)
      · exact ⟨[], rest, e, by rw [hcolon]; rfl, rfl, State.phase_name hname⟩
      · simp only [walk] at hwalk
        cases ht : turn settings e ch with
        | stop e₂ n =>
            rw [ht] at hwalk
            cases hwalk
        | next e₂ =>
            rw [ht] at hwalk
            obtain ⟨h₂, hs⟩ := turn_headers hset h ht
            rw [hname] at hs
            cases hphase : (e₂.advance ch).phase with
            | name l' =>
                obtain ⟨pre, post, e₃, rfl, hpre, hst⟩ := ih h₂ hwalk hphase
                refine ⟨ch :: pre, post, e₃, rfl, ?_, hst⟩
                simp only [walk, ht]
                exact hpre
            | outside =>
                rw [hphase] at hs
                cases hs
            | value =>
                rw [hphase] at hs
                generalize e₂.user = u' at hs
                cases hs with
                | field p hc => exact absurd hc hcolon
            | after =>
                rw [hphase] at hs
                cases hs

/-- Before a cut that is not clear a field name starts. -/
theorem exists_name (hset : settings.KeepsBody) {xs : List UInt8} {e₁ : Exec σ}
    (h : e.OnResponse) (hwalk : walk settings e xs = some e₁) (hout : e.phase = .outside)
    (hclear : e₁.parser.state.clear = false) :
    ∃ pre post e₂ l, xs = pre ++ post ∧ walk settings e pre = some e₂ ∧ e₂.OnResponse ∧
      e₂.phase = .name l := by
  induction xs generalizing e with
  | nil =>
      cases hwalk
      rw [State.clear_of_outside h.state hout] at hclear
      cases hclear
  | cons ch rest ih =>
      simp only [walk] at hwalk
      cases ht : turn settings e ch with
      | stop e₂ n =>
          rw [ht] at hwalk
          cases hwalk
      | next e₂ =>
          rw [ht] at hwalk
          obtain ⟨h₂, hs⟩ := turn_headers hset h ht
          rw [hout] at hs
          have hone : walk settings e [ch] = some (e₂.advance ch) := by
            simp only [walk, ht]
          cases hphase : (e₂.advance ch).phase with
          | name l => exact ⟨[ch], rest, _, l, rfl, hone, h₂, hphase⟩
          | outside =>
              obtain ⟨pre, post, e₃, l, rfl, hpre, h₃, hname⟩ := ih h₂ hwalk hphase
              refine ⟨ch :: pre, post, e₃, l, rfl, ?_, h₃, hname⟩
              exact (walk_append hone pre).trans hpre
          | value =>
              rw [hphase] at hs
              cases hs
          | after =>
              rw [hphase] at hs
              cases hs

/-! ## The end of a call -/

theorem callbackData_others {d : Data} {t : List UInt8} {adv : Nat} {u : σ}
    {k : Exec σ → Turn σ} (hf : d ≠ .header_field) (hv : d ≠ .header_value)
    (hk : ∀ x : Exec σ, Others settings u x.user → Others settings u (k x).exec.user)
    (hu : Others settings u e.user) :
    Others settings u (e.callbackData settings d t adv k).exec.user := by
  cases hm : e.mark d with
  | none =>
      rw [Exec.callbackData_none hm]
      exact hk e hu
  | some l =>
      rw [Exec.callbackData_some hm]
      split
      · exact hu.data d _ _ hf hv
      · exact hk _ (hu.data d _ _ hf hv)

theorem State.eq_header_field {s : State} (h : s.element = some .header_field) :
    s = .s_header_field := by
  cases s <;> first | rfl | cases h

theorem State.eq_header_value {s : State} (h : s.element = some .header_value) :
    s = .s_header_value := by
  cases s <;> first | rfl | cases h

/-- Outside header lines nothing of a header is left over. -/
theorem endOfData_others (h : e.OnResponse) (hout : e.phase = .outside) (pos : Nat) :
    Others settings e.user (endOfData settings e pos).user := by
  have hresult : ∀ a : Turn σ, (a.result pos).user = a.exec.user := by
    rintro (x | x) <;> rfl
  have hfield : e.parser.state ≠ .s_header_field := by
    intro hst
    rw [Exec.phase, hst] at hout
    cases hout
  have hvalue : e.parser.state ≠ .s_header_value := by
    intro hst
    rw [Exec.phase, hst] at hout
    cases hout
  have hmark : ∀ d, d = .header_field ∨ d = .header_value → e.mark d = none := by
    rintro d (rfl | rfl)
    · refine h.steady.mark_eq_none (fun hel => hfield ?_) nofun
      exact State.eq_header_field hel
    · refine h.steady.mark_eq_none (fun hel => hvalue ?_) nofun
      exact State.eq_header_value hel
  unfold endOfData
  rw [h.steady.scan_eq_none hfield hvalue]
  show Others settings e.user ((flush settings e).result pos).user
  rw [hresult]
  unfold flush
  rw [Exec.callbackData_none (hmark _ (.inl rfl)), Exec.callbackData_none (hmark _ (.inr rfl))]
  refine callbackData_others nofun nofun (fun e₁ h₁ => ?_) .none
  refine callbackData_others nofun nofun (fun e₂ h₂ => ?_) h₁
  exact callbackData_others nofun nofun (fun _ h₃ => h₃) h₂

end Gxh.HttpParser
