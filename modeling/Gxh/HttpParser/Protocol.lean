import Gxh.HttpParser.Segments

/-!
# The order of the callbacks

`http_parser_execute` reports a stream of messages by callbacks, and an embedder relies on their
order. `Reported.next` is that order as an acceptor: which callback may come after what has been
reported, and how many bytes of a body or a chunk are still to come.

* `Settings.traced` writes down the callbacks that other settings get, in order. Those settings
  are arbitrary: they may fail, and `on_headers_complete` may ask to skip the body or announce an
  upgrade.
* `Agrees` says which phases a parser can be in, by its state. The lemmas `fits_*`, one for each
  case of the `switch`, say that a round keeps it, with the bytes under the mark of the body
  counted in.
-/

namespace Gxh.HttpParser

/-- A callback, and what the rest of the message depends on: `content_length` at a notify callback,
the bytes of a data callback. -/
inductive Call
  | notify (n : Notice) (content_length : Nat)
  | data (d : Data) (bytes : List UInt8)
  deriving DecidableEq, Repr

/-- What has been reported of a message. `trailing` header lines follow the last chunk. -/
inductive Reported
  | between
  | begun
  | url
  | status
  | field (trailing : Bool)
  | value (trailing : Bool)
  /-- the headers, with the length of the body if they give one -/
  | entity (length : Option Nat)
  | body (left : Nat)
  /-- a body up to the end of the stream -/
  | stream
  | chunk (left : Nat)
  /-- after a chunk -/
  | chunks
  /-- after the header of the chunk without bytes -/
  | lastChunk
  | complete
  deriving DecidableEq, Repr

namespace Reported

/-- Whether the header lines trail, where a line may start or the lines may end. -/
def lineEnd : Reported → Option Bool
  | .url | .status | .value false => some false
  | .lastChunk | .value true => some true
  | _ => none

/-- The phase after a callback, if it may come here. -/
def next (ph : Reported) : Call → Option Reported
  | .notify .message_begin _ => if ph = .between then some .begun else none
  | .data .url _ => if ph = .begun ∨ ph = .url then some .url else none
  | .data .status _ => if ph = .begun ∨ ph = .status then some .status else none
  | .data .header_field _ =>
      match ph with
      | .field t => some (.field t)
      | ph => ph.lineEnd.map .field
  | .data .header_value _ =>
      match ph with
      | .field t | .value t => some (.value t)
      | _ => none
  | .notify .headers_complete n =>
      if ph.lineEnd = some false then some (.entity (if n = ULLONG_MAX then none else some n))
      else none
  | .data .body l =>
      match ph with
      | .entity none | .stream => some .stream
      | .entity (some n) | .body n => if l.length ≤ n then some (.body (n - l.length)) else none
      | .chunk n => if l.length ≤ n then some (.chunk (n - l.length)) else none
      | _ => none
  | .notify .chunk_header n =>
      match ph with
      | .entity _ | .chunks => some (if n = 0 then .lastChunk else .chunk n)
      | _ => none
  | .notify .chunk_complete _ =>
      if ph = .chunk 0 then some .chunks
      else if ph.lineEnd = some true then some .complete
      else none
  | .notify .message_complete _ =>
      match ph with
      | .entity _ | .body 0 | .stream | .complete => some .between
      | _ => none

/-- The phase that a sequence of callbacks leads to, if they may come in this order. -/
def after (calls : List Call) : Option Reported := calls.foldlM next .between

theorem after_concat {calls : List Call} {ph : Reported} (h : after calls = some ph) (c : Call) :
    after (calls ++ [c]) = ph.next c := by
  unfold after at h ⊢
  rw [List.foldlM_append, h]
  exact bind_pure (ph.next c)

end Reported

variable {σ : Type}

/-- The settings `settings`, with their callbacks written down. -/
def Settings.traced (settings : Settings σ) : Settings (σ × List Call) where
  onNotify := fun n p u =>
    let (v, r) := settings.onNotify n p u.1
    ((v, u.2 ++ [.notify n p.content_length]), r)
  onData := fun d p l u =>
    let (v, r) := settings.onData d p l u.1
    ((v, u.2 ++ [.data d l]), r)

/-- The phases a parser may be in, with `n` bytes of the body read that were not reported. -/
def Agrees (p : Parser) (n : Nat) (ph : Reported) : Prop :=
  match p.state with
  | .s_dead | .s_start_req_or_res | .s_start_res | .s_start_req => ph = .between
  | .s_res_or_resp_H | .s_res_H | .s_res_HT | .s_res_HTT | .s_res_HTTP | .s_res_http_major
  | .s_res_http_dot | .s_res_http_minor | .s_res_http_end | .s_res_first_status_code
  | .s_res_status_code | .s_res_status_start | .s_req_method | .s_req_spaces_before_url =>
      ph = .begun ∧ p.flags.F_TRAILING = false
  | .s_res_status => (ph = .begun ∨ ph = .status) ∧ p.flags.F_TRAILING = false
  | .s_res_line_almost_done => ph = .status ∧ p.flags.F_TRAILING = false
  | .s_req_schema | .s_req_schema_slash | .s_req_schema_slash_slash | .s_req_server_start
  | .s_req_server | .s_req_server_with_at | .s_req_path | .s_req_query_string_start
  | .s_req_query_string | .s_req_fragment_start | .s_req_fragment =>
      (ph = .begun ∨ ph = .url) ∧ p.flags.F_TRAILING = false
  | .s_req_http_start | .s_req_http_H | .s_req_http_HT | .s_req_http_HTT | .s_req_http_HTTP
  | .s_req_http_I | .s_req_http_IC | .s_req_http_major | .s_req_http_dot | .s_req_http_minor
  | .s_req_http_end | .s_req_line_almost_done => ph = .url ∧ p.flags.F_TRAILING = false
  | .s_header_field_start | .s_headers_almost_done => ph.lineEnd = some p.flags.F_TRAILING
  | .s_header_field => ph.lineEnd = some p.flags.F_TRAILING ∨ ph = .field p.flags.F_TRAILING
  | .s_header_value_discard_ws | .s_header_value_discard_ws_almost_done
  | .s_header_value_discard_lws | .s_header_value_start => ph = .field p.flags.F_TRAILING
  | .s_header_value => ph = .field p.flags.F_TRAILING ∨ ph = .value p.flags.F_TRAILING
  | .s_header_almost_done | .s_header_value_lws => ph = .value p.flags.F_TRAILING
  -- left in the round that enters them
  | .s_headers_done | .s_message_done => False
  | .s_chunk_size_start | .s_chunk_size | .s_chunk_parameters | .s_chunk_size_almost_done =>
      (∃ len, ph = .entity len) ∨ ph = .chunks
  | .s_chunk_data => ph = .chunk (p.content_length + n) ∧ 0 < p.content_length
  | .s_chunk_data_almost_done => ph = .chunk n
  | .s_chunk_data_done => ph = .chunk 0
  | .s_body_identity =>
      (ph = .entity (some (p.content_length + n)) ∨ ph = .body (p.content_length + n)) ∧
        0 < p.content_length
  | .s_body_identity_eof => ph = .entity none ∨ ph = .stream

theorem Agrees.congr {p p' : Parser} {n : Nat} {ph : Reported} (h : Agrees p n ph)
    (hst : p'.state = p.state) (ht : p'.flags.F_TRAILING = p.flags.F_TRAILING)
    (hc : p'.content_length = p.content_length) : Agrees p' n ph := by
  unfold Agrees at h ⊢
  rwa [hst, ht, hc]

/-- Only in a body the bytes in hand matter. -/
theorem Agrees.outside {p : Parser} {n : Nat} {ph : Reported} (h : Agrees p n ph)
    (hs : p.state.inBody = false) (m : Nat) : Agrees p m ph := by
  unfold Agrees at h ⊢
  cases hst : p.state <;> rw [hst] at h hs <;> first | exact h | cases hs

/-- Between two messages. -/
theorem agrees_newMessage {p : Parser} {n : Nat} (h : p.state = p.newMessage) :
    Agrees p n .between := by
  have hstate : p.newMessage = .s_dead ∨ p.newMessage = .s_start_req ∨
      p.newMessage = .s_start_res := by
    unfold Parser.newMessage
    split
    · split
      · exact .inr (.inl rfl)
      · exact .inr (.inr rfl)
    · exact .inl rfl
  unfold Agrees
  rcases hstate with hs | hs | hs <;> rw [h, hs]

namespace Exec

/-- What has been reported before. -/
def At (e : Exec (σ × List Call)) (ph : Reported) : Prop := Reported.after e.user.2 = some ph

/-- The bytes under the mark of the body. -/
def inHand (e : Exec σ) : Nat := ((e.mark .body).map List.length).getD 0

/-- What holds between two rounds. -/
structure Stands (e : Exec (σ × List Call)) : Prop where
  steady : e.Steady
  phase : ∃ ph, e.At ph ∧ Agrees e.parser e.inHand ph

/-- What is left at the end of a call. -/
def Ended (e : Exec (σ × List Call)) : Prop :=
  ∃ ph, e.At ph ∧ (e.parser.http_errno = .HPE_OK → Agrees e.parser 0 ph)

end Exec

/-- What is said of a round that reads `ch`. -/
def Fits (ch : UInt8) : Turn (σ × List Call) → Prop
  | .next e => (e.advance ch).Stands
  | .stop e _ => e.Ended

namespace Fits

variable {settings : Settings σ} {e : Exec (σ × List Call)} {ch : UInt8} {ph ph' : Reported}
  {k : Exec (σ × List Call) → Turn (σ × List Call)}

theorem fail {err : HttpErrno} (hat : e.At ph) (h : err ≠ .HPE_OK) : Fits ch (e.fail err) :=
  ⟨ph, hat, fun hok => absurd hok h⟩

/-- A round that ends inside an element. -/
theorem next (hs : e.Steady) (hat : e.At ph) (hin : e.parser.state.inBody = false) {n : Nat}
    (h : Agrees e.parser n ph) : Fits ch (.next e) :=
  ⟨hs.advance ch, ph, hat, h.outside hin _⟩

/-- A round that ends outside every element. -/
theorem rest (hi : e.Idle) (hat : e.At ph) (hs : e.parser.state.quiet = true)
    (h : Agrees e.parser 0 ph) : Fits ch (.next e) := by
  refine next (hi.steady hs) hat ?_ h
  simp only [State.quiet, Bool.and_eq_true, Bool.not_eq_true'] at hs
  exact hs.2

/-- A round that ends with a mark just set. -/
theorem enter {e' : Exec (σ × List Call)} {d : Data} (hi : e.Idle) (hat : e'.At ph)
    (hok : e'.parser.http_errno = e.parser.http_errno) (hm : e'.mark = (e.setMark d).mark)
    (hsc : e'.scan = e.scan) (hin : e'.parser.state.element = some d)
    (h : Agrees e'.parser 0 ph) : Fits ch (.next e') := by
  have ho : e'.Only (some d) := (hi.setMark d).congr hok hm hsc
  refine next (ho.inside ?_ hin) hat (State.not_inBody hin) h
  rw [hm]
  exact e.setMark_isSome d

theorem ite {c : Prop} [Decidable c] {a a' : Turn (σ × List Call)} (h : c → Fits ch a)
    (h' : ¬c → Fits ch a') : Fits ch (if c then a else a') := by
  by_cases hc : c
  · simpa only [if_pos hc] using h hc
  · simpa only [if_neg hc] using h' hc

theorem strict {c : Bool} {a : Turn (σ × List Call)} (hat : e.At ph) (h : Fits ch a) :
    Fits ch (e.strictCheck c a) :=
  .ite (fun _ => .fail hat (by decide)) fun _ => h

theorem count {v : Nat} (hat : e.At ph)
    (h : ∀ n, Fits ch (k (e.modify fun p => { p with nread := n }))) :
    Fits ch (e.countHeaderSize v k) :=
  .ite (fun _ => .fail hat (by decide)) fun _ => h _

theorem notify {n : Notice} {adv : Nat} (hat : e.At ph)
    (hnext : ph.next (.notify n e.parser.content_length) = some ph')
    (h : ∀ e', e'.parser = e.parser → e'.mark = e.mark → e'.scan = e.scan → e'.At ph' →
      Fits ch (k e')) :
    Fits ch (e.callbackNotify settings.traced n adv k) := by
  have hafter : Reported.after (settings.traced.onNotify n e.parser e.user).1.2 = some ph' :=
    (Reported.after_concat hat _).trans hnext
  unfold Exec.callbackNotify
  by_cases hr : (settings.traced.onNotify n e.parser e.user).2 = 0
  · simp only [hr, ne_eq, not_true_eq_false, if_false]
    exact h { e with user := (settings.traced.onNotify n e.parser e.user).1 } rfl rfl rfl hafter
  · simp only [ne_eq, hr, not_false_eq_true, if_true]
    exact ⟨ph', hafter, fun hok => by cases hok⟩

theorem data {d : Data} {t : List UInt8} {adv : Nat} (hat : e.At ph)
    (hm : (e.mark d).isSome = true)
    (hnext : ∀ l, e.mark d = some l → ph.next (.data d (l ++ t)) = some ph')
    (h : ∀ e', e'.parser = e.parser → e'.mark = Function.update e.mark d none →
      e'.scan = e.scan → e'.At ph' → Fits ch (k e')) :
    Fits ch (e.callbackData settings.traced d t adv k) := by
  obtain ⟨l, hl⟩ := Option.isSome_iff_exists.mp hm
  have hafter : Reported.after (settings.traced.onData d e.parser (l ++ t) e.user).1.2 = some ph' :=
    (Reported.after_concat hat _).trans (hnext l hl)
  rw [Exec.callbackData_some hl]
  split
  · exact ⟨ph', hafter, fun hok => by cases hok⟩
  · exact h { e with
      user := (settings.traced.onData d e.parser (l ++ t) e.user).1
      mark := Function.update e.mark d none } rfl rfl rfl hafter

/-- A notify callback at the end of a round. -/
theorem notifyNext {n : Notice} (hi : e.Idle) (hat : e.At ph)
    (hnext : ph.next (.notify n e.parser.content_length) = some ph')
    (hs : e.parser.state.quiet = true) (h : Agrees e.parser 0 ph') :
    Fits ch (e.callbackNotify settings.traced n 1 .next) := by
  apply notify hat hnext
  intro e' hp hm hsc hat'
  refine rest (hi.congr ?_ hm hsc) hat' ?_ ?_
  · rw [hp]
  · rw [hp]
    exact hs
  · rw [hp]
    exact h

/-- A data callback at the end of a round. -/
theorem dataNext {d : Data} (ho : e.Only (some d)) (hat : e.At ph)
    (hm : (e.mark d).isSome = true)
    (hnext : ∀ l, e.mark d = some l → ph.next (.data d l) = some ph')
    (hs : e.parser.state.quiet = true) (h : Agrees e.parser 0 ph') :
    Fits ch (e.callbackData settings.traced d [] 1 .next) := by
  apply data hat hm
  · intro l hl
    rw [List.append_nil]
    exact hnext l hl
  · intro e' hp hm' hsc hat'
    refine rest (ho.cleared (congrArg Parser.http_errno hp) hm' hsc) hat' ?_ ?_
    · rw [hp]
      exact hs
    · rw [hp]
      exact h

end Fits

/-! ## The cases -/

section Cases

variable {settings : Settings σ} {e : Exec (σ × List Call)} {ch : UInt8} {ph : Reported} {t : Bool}

theorem fits_expect {c : UInt8} {s : State} (hi : e.Idle) (hat : e.At ph) (hs : s.quiet = true)
    (h : Agrees (e.goto s).parser 0 ph) : Fits ch (expect e ch c s) :=
  .strict hat (.rest (hi.goto _) hat hs h)

theorem fits_versionDigit {set : Nat → Parser → Parser} {s : State} (hi : e.Idle) (hat : e.At ph)
    (hset : ∀ v p, (set v p).http_errno = p.http_errno) (hs : s.quiet = true)
    (h : ∀ v, Agrees ((e.modify (set v)).goto s).parser 0 ph) :
    Fits ch (versionDigit e ch set s) := by
  apply Fits.ite
  · exact fun _ => .fail hat (by decide)
  · exact fun _ => .rest ((hi.modify (hset _ _)).goto _) hat hs (h _)

theorem fits_startReq (hi : e.Idle) (hs : e.parser.state = .s_start_req) (hat : e.At .between) :
    Fits ch (startReq settings.traced e ch) := by
  apply Fits.ite
  · intro _
    refine .rest hi hat (by rw [hs]; rfl) ?_
    rw [Agrees, hs]
  · intro _
    refine .ite (fun _ => .fail hat (by decide)) fun _ => ?_
    cases methodOfFirst ch with
    | none => exact .fail hat (by decide)
    | some m => exact .notifyNext (hi.congr rfl rfl rfl) hat rfl rfl (And.intro rfl rfl)

theorem fits_startReqOrRes (hi : e.Idle) (hs : e.parser.state = .s_start_req_or_res)
    (hat : e.At .between) : Fits ch (startReqOrRes settings.traced e ch) := by
  apply Fits.ite
  · intro _
    refine .rest hi hat (by rw [hs]; rfl) ?_
    rw [Agrees, hs]
  · intro _
    apply Fits.ite
    · exact fun _ => .notifyNext (hi.congr rfl rfl rfl) hat rfl rfl (And.intro rfl rfl)
    · exact fun _ => fits_startReq (hi.congr rfl rfl rfl) rfl hat

theorem fits_resOrRespH (hi : e.Idle) (hat : e.At .begun) (ht : e.parser.flags.F_TRAILING = false) :
    Fits ch (resOrRespH e ch) := by
  refine .ite (fun _ => .rest (hi.congr rfl rfl rfl) hat rfl (And.intro rfl ht)) fun _ => ?_
  apply Fits.ite
  · exact fun _ => .fail hat (by decide)
  · exact fun _ => .rest (hi.congr rfl rfl rfl) hat rfl (And.intro rfl ht)

theorem fits_startRes (hi : e.Idle) (hs : e.parser.state = .s_start_res) (hat : e.At .between) :
    Fits ch (startRes settings.traced e ch) := by
  apply Fits.ite
  · intro _
    refine .rest hi hat (by rw [hs]; rfl) ?_
    rw [Agrees, hs]
  · intro _
    apply Fits.ite
    · exact fun _ => .notifyNext (hi.congr rfl rfl rfl) hat rfl rfl (And.intro rfl rfl)
    · exact fun _ => .fail hat (by decide)

theorem fits_resFirstStatusCode (hi : e.Idle) (hs : e.parser.state = .s_res_first_status_code)
    (hat : e.At .begun) (ht : e.parser.flags.F_TRAILING = false) :
    Fits ch (resFirstStatusCode e ch) := by
  apply Fits.ite
  · intro _
    apply Fits.ite
    · intro _
      refine .rest hi hat (by rw [hs]; rfl) ?_
      rw [Agrees, hs]
      exact And.intro rfl ht
    · exact fun _ => .fail hat (by decide)
  · exact fun _ => .rest (hi.congr rfl rfl rfl) hat rfl (And.intro rfl ht)

theorem next_status (hph : ph = .begun ∨ ph = .status) (l : List UInt8) :
    ph.next (.data .status l) = some .status :=
  if_pos hph

theorem fits_resStatus (ho : e.Only (some .status)) (hm : (e.mark .status).isSome = true)
    (hs : e.parser.state = .s_res_status) (hat : e.At ph) (hph : ph = .begun ∨ ph = .status)
    (ht : e.parser.flags.F_TRAILING = false) : Fits ch (resStatus settings.traced e ch) := by
  apply Fits.ite
  · intro _
    exact .dataNext (ho.goto _) hat hm (fun l _ => next_status hph l) rfl (And.intro rfl ht)
  · intro _
    apply Fits.ite
    · intro _
      refine .dataNext (ho.goto _) hat hm (fun l _ => next_status hph l) rfl ?_
      exact (congrArg some ht.symm : Reported.lineEnd .status = some e.parser.flags.F_TRAILING)
    · intro _
      refine .next (ho.inside hm (by rw [hs]; rfl)) hat (by rw [hs]; rfl) (n := 0) ?_
      rw [Agrees, hs]
      exact And.intro hph ht

theorem fits_resStatusStart (hi : e.Idle) (hat : e.At .begun)
    (ht : e.parser.flags.F_TRAILING = false) : Fits ch (resStatusStart settings.traced e ch) := by
  have ho := ((hi.setMark .status).goto .s_res_status).modify
    (f := fun p => { p with index := 0 }) rfl
  have hm := e.setMark_isSome .status
  apply Fits.ite
  · exact fun _ => fits_resStatus ho hm rfl hat (.inl rfl) ht
  · exact fun _ => .next (ho.inside hm rfl) hat rfl (n := 0) (And.intro (.inl rfl) ht)

theorem fits_resStatusCode (hi : e.Idle) (hs : e.parser.state = .s_res_status_code)
    (hat : e.At .begun) (ht : e.parser.flags.F_TRAILING = false) :
    Fits ch (resStatusCode settings.traced e ch) := by
  apply Fits.ite
  · intro _
    refine .ite (fun _ => .rest (hi.goto _) hat rfl (And.intro rfl ht)) fun _ => ?_
    apply Fits.ite
    · exact fun _ => fits_resStatusStart (hi.goto _) hat ht
    · exact fun _ => .fail hat (by decide)
  · intro _
    apply Fits.ite
    · exact fun _ => .fail hat (by decide)
    · intro _
      refine .rest (hi.congr rfl rfl rfl) hat ?_ ?_
      · show e.parser.state.quiet = true
        rw [hs]
        rfl
      · have hagrees : Agrees e.parser 0 .begun := by
          rw [Agrees, hs]
          exact And.intro rfl ht
        exact hagrees.congr rfl rfl rfl

theorem fits_reqMethod (hi : e.Idle) (hs : e.parser.state = .s_req_method) (hat : e.At .begun)
    (ht : e.parser.flags.F_TRAILING = false) : Fits ch (reqMethod e ch) := by
  have hquiet : e.parser.state.quiet = true := by
    rw [hs]
    rfl
  have hagrees : Agrees e.parser 0 .begun := by
    rw [Agrees, hs]
    exact And.intro rfl ht
  refine .ite (fun _ => .fail hat (by decide)) fun _ => ?_
  refine .ite (fun _ => .rest (hi.congr rfl rfl rfl) hat rfl (And.intro rfl ht)) fun _ => ?_
  refine .ite (fun _ => .rest (hi.congr rfl rfl rfl) hat hquiet (hagrees.congr rfl rfl rfl))
    fun _ => ?_
  apply Fits.ite
  · intro _
    cases methodSwitch ch e.parser.method e.parser.index with
    | none => exact .fail hat (by decide)
    | some m => exact .rest (hi.congr rfl rfl rfl) hat hquiet (hagrees.congr rfl rfl rfl)
  · exact fun _ => .fail hat (by decide)

/-- Inside a request target. -/
theorem agrees_url {p : Parser} (hs : p.state.element = some .url) (hph : ph = .begun ∨ ph = .url)
    (ht : p.flags.F_TRAILING = false) : Agrees p 0 ph := by
  unfold Agrees
  cases hst : p.state <;> rw [hst] at hs <;> first | exact And.intro hph ht | cases hs

theorem fits_urlChar (ho : e.Only (some .url)) (hm : (e.mark .url).isSome = true) (hat : e.At ph)
    (hph : ph = .begun ∨ ph = .url) (ht : e.parser.flags.F_TRAILING = false) :
    Fits ch (urlChar e ch) := by
  apply Fits.ite
  · exact fun _ => .fail hat (by decide)
  · intro hs
    have hel := parseUrlChar_element hs
    exact .next ((ho.goto _).inside hm hel) hat (State.not_inBody hel) (agrees_url hel hph ht)

theorem fits_reqSpacesBeforeUrl (hi : e.Idle) (hs : e.parser.state = .s_req_spaces_before_url)
    (hat : e.At .begun) (ht : e.parser.flags.F_TRAILING = false) :
    Fits ch (reqSpacesBeforeUrl e ch) := by
  apply Fits.ite
  · intro _
    refine .rest hi hat (by rw [hs]; rfl) ?_
    rw [Agrees, hs]
    exact And.intro rfl ht
  · intro _
    have ho := hi.setMark .url
    have hm := e.setMark_isSome .url
    apply Fits.ite
    · exact fun _ => fits_urlChar (ho.goto _) hm hat (.inl rfl) ht
    · exact fun _ => fits_urlChar ho hm hat (.inl rfl) ht

theorem fits_reqSchema (ho : e.Only (some .url)) (hm : (e.mark .url).isSome = true) (hat : e.At ph)
    (hph : ph = .begun ∨ ph = .url) (ht : e.parser.flags.F_TRAILING = false) :
    Fits ch (reqSchema e ch) := by
  apply Fits.ite
  · exact fun _ => .fail hat (by decide)
  · exact fun _ => fits_urlChar ho hm hat hph ht

theorem fits_reqUrl (ho : e.Only (some .url)) (hm : (e.mark .url).isSome = true) (hat : e.At ph)
    (hph : ph = .begun ∨ ph = .url) (ht : e.parser.flags.F_TRAILING = false) :
    Fits ch (reqUrl settings.traced e ch) := by
  have hnext : ∀ l, ph.next (.data .url l) = some .url := fun _ => if_pos hph
  refine .ite (fun _ => .dataNext (ho.goto _) hat hm (fun l _ => hnext l) rfl
    (And.intro rfl ht)) fun _ => ?_
  apply Fits.ite
  · intro _
    refine .dataNext (ho.congr rfl rfl rfl) hat hm (fun l _ => hnext l) ?_ ?_
    · show State.quiet (if ch = CR then _ else _) = true
      split <;> rfl
    · by_cases hcr : ch = CR
      · rw [if_pos hcr]
        exact And.intro rfl ht
      · rw [if_neg hcr]
        exact (congrArg some ht.symm : Reported.lineEnd .url = some e.parser.flags.F_TRAILING)
  · exact fun _ => fits_urlChar ho hm hat hph ht

theorem fits_reqHttpStart (hi : e.Idle) (hs : e.parser.state = .s_req_http_start) (hat : e.At .url)
    (ht : e.parser.flags.F_TRAILING = false) : Fits ch (reqHttpStart e ch) := by
  apply Fits.ite
  · intro _
    refine .rest hi hat (by rw [hs]; rfl) ?_
    rw [Agrees, hs]
    exact And.intro rfl ht
  · intro _
    refine .ite (fun _ => .rest (hi.goto _) hat rfl (And.intro rfl ht)) fun _ => ?_
    apply Fits.ite
    · exact fun _ => .rest (hi.goto _) hat rfl (And.intro rfl ht)
    · exact fun _ => .fail hat (by decide)

theorem fits_reqHttpEnd (hi : e.Idle) (hat : e.At .url) (ht : e.parser.flags.F_TRAILING = false) :
    Fits ch (reqHttpEnd e ch) := by
  refine .ite (fun _ => .rest (hi.goto _) hat rfl (And.intro rfl ht)) fun _ => ?_
  apply Fits.ite
  · intro _
    refine .rest (hi.goto _) hat rfl ?_
    exact (congrArg some ht.symm : Reported.lineEnd .url = some e.parser.flags.F_TRAILING)
  · exact fun _ => .fail hat (by decide)

theorem fits_messageNext (hi : e.Idle) (hat : e.At ph)
    (hnext : ∀ n, ph.next (.notify .message_complete n) = some .between) :
    Fits ch (messageComplete settings.traced e .next) :=
  .notifyNext (hi.goto _) hat (hnext _) (Parser.newMessage_quiet _) (agrees_newMessage rfl)

theorem fits_messageDone (hi : e.Idle) (hat : e.At ph)
    (hnext : ∀ n, ph.next (.notify .message_complete n) = some .between) :
    Fits ch (messageDone settings.traced e) := by
  unfold messageDone messageComplete
  refine .notify hat (hnext _) ?_
  intro e' hp hm hsc hat'
  have hagrees : Agrees e'.parser 0 .between := by
    rw [hp]
    exact agrees_newMessage rfl
  apply Fits.ite
  · exact fun _ => ⟨_, hat', fun _ => hagrees⟩
  · refine fun _ => .rest (hi.congr ?_ hm hsc) hat' ?_ hagrees
    · rw [hp]
      rfl
    · rw [hp]
      exact Parser.newMessage_quiet _

/-- A round that ends idle at the start of a body. -/
theorem Fits.restBody (hi : e.Idle) (hat : e.At ph) (hs : e.parser.state.inBody = true)
    (h : Agrees e.parser 0 ph) : Fits ch (.next e) := by
  refine ⟨((hi.mono _).inBody hs).advance ch, ph, hat, ?_⟩
  have hmark : e.mark .body = none := by
    refine hi.marks .body ?_
    intro heq
    cases heq
  have hinHand : (e.advance ch).inHand = 0 := by
    simp only [Exec.inHand, Exec.advance, hmark]
    rfl
  rw [hinHand]
  exact h

theorem fits_headersDone (hi : e.Idle)
    (hat : e.At (.entity (if e.parser.content_length = ULLONG_MAX then none
      else some e.parser.content_length))) : Fits ch (headersDone settings.traced e ch) := by
  have hnext : ∀ len n, Reported.next (.entity len) (.notify .message_complete n) = some .between :=
    fun _ _ => rfl
  apply Fits.strict hat
  have hi' : (e.modify fun p => { p with nread := 0 }).Idle := hi.congr rfl rfl rfl
  apply Fits.ite
  · intro _
    refine .notify hat (hnext _ _) ?_
    intro e' hp _ _ hat'
    refine ⟨_, hat', fun _ => ?_⟩
    rw [hp]
    exact agrees_newMessage rfl
  · intro _
    refine .ite (fun _ => fits_messageNext hi' hat (hnext _)) fun _ => ?_
    refine .ite (fun _ => .rest (hi'.goto _) hat rfl (.inl ⟨_, rfl⟩)) fun _ => ?_
    refine .ite (fun _ => fits_messageNext hi' hat (hnext _)) fun hzero => ?_
    apply Fits.ite
    · intro hlen
      have hlen : e.parser.content_length ≠ ULLONG_MAX := hlen
      rw [if_neg hlen] at hat
      exact .restBody (hi'.goto _) hat rfl (And.intro (.inl rfl) (Nat.pos_of_ne_zero hzero))
    · intro hlen
      have hlen : e.parser.content_length = ULLONG_MAX := not_not.mp hlen
      rw [if_pos hlen] at hat
      apply Fits.ite
      · exact fun _ => fits_messageNext hi' hat (hnext _)
      · exact fun _ => .restBody (hi'.goto _) hat rfl (.inl rfl)

/-- Whatever `on_headers_complete` asks for, it does not change the length of the body. -/
theorem fits_headersComplete {k : Exec (σ × List Call) → Turn (σ × List Call)} (hi : e.Idle)
    (hat : e.At ph) (hph : ph.lineEnd = some false)
    (h : ∀ e', e'.Idle → e'.At (.entity (if e'.parser.content_length = ULLONG_MAX then none
      else some e'.parser.content_length)) → Fits ch (k e')) :
    Fits ch (headersComplete settings.traced e k) := by
  have hat' : Reported.after (settings.traced.onNotify .headers_complete e.parser e.user).1.2 =
      some (.entity (if e.parser.content_length = ULLONG_MAX then none
        else some e.parser.content_length)) :=
    (Reported.after_concat hat _).trans (if_pos hph)
  refine .ite (fun _ => h _ (hi.congr rfl rfl rfl) hat') fun _ => ?_
  refine .ite (fun _ => h _ (hi.congr rfl rfl rfl) hat') fun _ => ?_
  apply Fits.ite
  · exact fun _ => h _ (hi.congr rfl rfl rfl) hat'
  · exact fun _ => ⟨_, hat', fun hok => by cases hok⟩

theorem fits_headersAlmostDone (hi : e.Idle) (hat : e.At ph)
    (hph : ph.lineEnd = some e.parser.flags.F_TRAILING) :
    Fits ch (headersAlmostDone settings.traced e ch) := by
  apply Fits.strict hat
  apply Fits.ite
  · intro htrail
    rw [htrail] at hph
    have hnext : ph.next (.notify .chunk_complete e.parser.content_length) = some .complete := by
      have hchunk : ph ≠ .chunk 0 := by
        rintro rfl
        cases hph
      simp only [Reported.next, if_neg hchunk, if_pos hph]
    refine .notify hat hnext ?_
    intro e' hp hm hsc hat'
    refine fits_messageDone (hi.congr ?_ hm hsc) hat' fun _ => rfl
    rw [hp]
    rfl
  · intro htrail
    rw [Bool.not_eq_true] at htrail
    rw [htrail] at hph
    refine .ite (fun _ => .fail hat (by decide)) fun _ => ?_
    exact fits_headersComplete (hi.congr rfl rfl rfl) hat hph fun e' hi' => fits_headersDone hi'

/-! ### Header lines -/

theorem fits_headerFieldStart (hi : e.Idle) (hat : e.At ph)
    (hph : ph.lineEnd = some e.parser.flags.F_TRAILING) :
    Fits ch (headerFieldStart settings.traced e ch) := by
  refine .ite (fun _ => .rest (hi.goto _) hat rfl hph) fun _ => ?_
  refine .ite (fun _ => fits_headersAlmostDone (hi.goto _) hat hph) fun _ => ?_
  apply Fits.ite
  · exact fun _ => .fail hat (by decide)
  · exact fun _ => .enter hi hat rfl rfl rfl rfl (.inl hph)

theorem matchWord_flags (w : String) (c : UInt8) (own full other : HeaderState) (p : Parser) :
    (matchWord w c own full other p).flags = p.flags := by
  unfold matchWord
  simp only
  split
  · rfl
  · split <;> rfl

theorem fieldChar_flags (ch c : UInt8) (p : Parser) : (fieldChar ch c p).flags = p.flags := by
  unfold fieldChar
  cases p.header_state <;> simp only <;> first
    | exact matchWord_flags _ _ _ _ _ p
    | rfl
    | skip
  all_goals split <;> rfl

/-- A character of a value does not change where in the message the line stands. -/
def KeepsTrailing (p : Parser) : Except HttpErrno Parser → Prop
  | .ok p' => p'.flags.F_TRAILING = p.flags.F_TRAILING
  | .error _ => True

theorem contentLengthNum_trailing (ch : UInt8) (p : Parser) :
    KeepsTrailing p (contentLengthNum ch p) := by
  unfold contentLengthNum
  split
  · rfl
  · split
    · trivial
    · split
      · trivial
      · rfl

theorem valueChar_trailing (ch c : UInt8) (p : Parser) : KeepsTrailing p (valueChar ch c p) := by
  have hnum := contentLengthNum_trailing ch p
  unfold valueChar valueChar.nextToken
  cases p.header_state <;> simp only
  all_goals repeat' split
  all_goals first
    | with_reducible exact hnum
    | simp only [KeepsTrailing, matchWord_flags]

theorem finishHeader_trailing (p : Parser) :
    p.finishHeader.flags.F_TRAILING = p.flags.F_TRAILING := by
  unfold Parser.finishHeader
  split <;> rfl

theorem next_field (hph : ph.lineEnd = some t ∨ ph = .field t) (l : List UInt8) :
    ph.next (.data .header_field l) = some (.field t) := by
  rcases hph with hph | rfl
  · cases ph <;> first | cases hph | skip
    all_goals first | rfl | exact congrArg (Option.map Reported.field) hph
  · rfl

theorem next_value (hph : ph = .field t ∨ ph = .value t) (l : List UInt8) :
    ph.next (.data .header_value l) = some (.value t) := by
  rcases hph with rfl | rfl <;> rfl

theorem fits_headerField (h : e.Steady) (hs : e.parser.state = .s_header_field) (hat : e.At ph)
    (hph : ph.lineEnd = some e.parser.flags.F_TRAILING ∨ ph = .field e.parser.flags.F_TRAILING) :
    Fits ch (headerField settings.traced e ch) := by
  have hkeeps := fieldChar_keeps ch (token ch) e.parser
  apply Fits.ite
  · intro _
    have hs' : (fieldChar ch (token ch) e.parser).state = .s_header_field := hkeeps.state.trans hs
    have hst : (e.modify (fieldChar ch (token ch))).parser.state.inBody = false :=
      congrArg State.inBody hs'
    refine .next (h.scanning hkeeps.errno hkeeps.state rfl (.inl hs)) hat hst (n := 0) ?_
    unfold Agrees
    rw [show (e.modify (fieldChar ch (token ch))).parser.state = .s_header_field from hs']
    show _ = some (fieldChar ch (token ch) e.parser).flags.F_TRAILING ∨
      _ = Reported.field (fieldChar ch (token ch) e.parser).flags.F_TRAILING
    rw [fieldChar_flags]
    exact hph
  · intro _
    have ho := h.only (d := .header_field) (by rw [hs]; rfl)
    have hm : (e.mark .header_field).isSome = true :=
      (h.marks .header_field (by decide)).mpr (by rw [hs]; rfl)
    refine .count hat fun n => ?_
    apply Fits.ite
    · exact fun _ => .dataNext (ho.congr rfl rfl rfl) hat hm (fun l _ => next_field hph l) rfl rfl
    · exact fun _ => .fail hat (by decide)

theorem fits_headerValueStart (hi : e.Idle) (hat : e.At ph)
    (hph : ph = .field e.parser.flags.F_TRAILING ∨ ph = .value e.parser.flags.F_TRAILING) :
    Fits ch (headerValueStart e ch) := by
  obtain ⟨⟨type, flags, state, header_state⟩, u, m, sc⟩ := e
  cases header_state
  case h_content_length =>
    refine .ite (fun _ => .fail hat (by decide)) fun _ => ?_
    apply Fits.ite
    · exact fun _ => .fail hat (by decide)
    · exact fun _ => .enter hi hat rfl rfl rfl rfl hph
  all_goals exact .enter hi hat rfl rfl rfl rfl hph

theorem fits_headerValueDiscardWs (hi : e.Idle) (hs : e.parser.state = .s_header_value_discard_ws)
    (hat : e.At (.field e.parser.flags.F_TRAILING)) : Fits ch (headerValueDiscardWs e ch) := by
  apply Fits.ite
  · intro _
    refine .rest hi hat (by rw [hs]; rfl) ?_
    rw [Agrees, hs]
  · intro _
    refine .ite (fun _ => .rest (hi.goto _) hat rfl rfl) fun _ => ?_
    apply Fits.ite
    · exact fun _ => .rest (hi.goto _) hat rfl rfl
    · exact fun _ => fits_headerValueStart hi hat (.inl rfl)

theorem fits_headerAlmostDone (hi : e.Idle) (hat : e.At (.value e.parser.flags.F_TRAILING)) :
    Fits ch (headerAlmostDone e ch) := by
  apply Fits.ite
  · exact fun _ => .fail hat (by decide)
  · exact fun _ => .rest (hi.goto _) hat rfl rfl

theorem fits_headerValue (h : e.Steady) (hs : e.parser.state = .s_header_value) (hat : e.At ph)
    (hph : ph = .field e.parser.flags.F_TRAILING ∨ ph = .value e.parser.flags.F_TRAILING) :
    Fits ch (headerValue settings.traced e ch) := by
  have ho := h.only (d := .header_value) (by rw [hs]; rfl)
  have hm : (e.mark .header_value).isSome = true :=
    (h.marks .header_value (by decide)).mpr (by rw [hs]; rfl)
  apply Fits.ite
  · intro _
    refine .data hat hm (fun l _ => next_value hph _) ?_
    intro e' hp hm' hsc hat'
    have hi : e'.Idle := (ho.goto .s_header_almost_done).cleared
      (congrArg Parser.http_errno hp) hm' hsc
    refine .count hat' fun n => ?_
    refine .rest (hi.congr rfl rfl rfl) hat' ?_ ?_
    · show e'.parser.state.quiet = true
      rw [hp]
      rfl
    · have hagrees : Agrees e'.parser 0 (.value e.parser.flags.F_TRAILING) := by
        rw [hp]
        rfl
      exact hagrees.congr rfl rfl rfl
  · intro _
    apply Fits.ite
    · intro _
      refine .count hat fun n => ?_
      refine .data hat hm (fun l _ => next_value hph _) ?_
      intro e' hp hm' hsc hat'
      refine fits_headerAlmostDone (ho.cleared (by rw [hp]; rfl) hm' hsc) ?_
      rw [hp]
      exact hat'
    · intro _
      refine .ite (fun _ => .fail hat (by decide)) fun _ => ?_
      have hk := valueChar_keeps ch (lower ch) e.parser
      have htrail := valueChar_trailing ch (lower ch) e.parser
      cases hv : valueChar ch (lower ch) e.parser with
      | error err =>
          rw [hv] at hk
          exact .fail hat hk
      | ok p =>
          rw [hv] at hk htrail
          have hst : p.state = .s_header_value := hk.state.trans hs
          have htrail : p.flags.F_TRAILING = e.parser.flags.F_TRAILING := htrail
          refine .next (h.scanning hk.errno hk.state rfl (.inr hs)) hat
            (congrArg State.inBody hst) (n := 0) ?_
          rw [Agrees, hst, htrail]
          exact hph

theorem fits_headerValueLws (hi : e.Idle) (hat : e.At (.value e.parser.flags.F_TRAILING)) :
    Fits ch (headerValueLws settings.traced e ch) := by
  apply Fits.ite
  · intro _
    apply Fits.ite
    · exact fun _ => fits_headerValueStart (hi.congr rfl rfl rfl) hat (.inr rfl)
    · exact fun _ => fits_headerValueStart (hi.goto _) hat (.inr rfl)
  · intro _
    refine fits_headerFieldStart ((hi.modify (Parser.finishHeader_errno _)).goto _) hat ?_
    show _ = some e.parser.finishHeader.flags.F_TRAILING
    rw [finishHeader_trailing]
    cases e.parser.flags.F_TRAILING <;> rfl

theorem fits_headerValueDiscardLws (hi : e.Idle) (hat : e.At (.field e.parser.flags.F_TRAILING)) :
    Fits ch (headerValueDiscardLws settings.traced e ch) := by
  refine .ite (fun _ => .rest (hi.goto _) hat rfl rfl) fun _ => ?_
  refine .ite (fun _ => .fail hat (by decide)) fun _ => ?_
  have hi' : (e.modify Parser.finishHeader).Idle := hi.modify (Parser.finishHeader_errno _)
  have ho := (hi'.setMark .header_value).goto .s_header_field_start
  have hm := (e.modify Parser.finishHeader).setMark_isSome .header_value
  refine .data hat hm (fun l _ => next_value (.inl rfl) _) ?_
  intro e' hp hm' hsc hat'
  refine fits_headerFieldStart (ho.cleared (congrArg Parser.http_errno hp) hm' hsc) hat' ?_
  rw [hp]
  show _ = some e.parser.finishHeader.flags.F_TRAILING
  rw [finishHeader_trailing]
  cases e.parser.flags.F_TRAILING <;> rfl

/-! ### Bodies -/

/-- The byte that is read belongs to the body. -/
theorem inHand_setMark (e : Exec (σ × List Call)) (ch : UInt8) :
    ((e.setMark .body).advance ch).inHand = e.inHand + 1 := by
  simp only [Exec.inHand, Exec.advance, Exec.setMark, Function.update_self]
  cases e.mark .body <;> simp

theorem mark_setMark (e : Exec (σ × List Call)) {l : List UInt8}
    (h : (e.setMark .body).mark .body = some l) : l.length = e.inHand := by
  simp only [Exec.setMark, Function.update_self, Option.some.injEq] at h
  rw [← h, Exec.inHand]
  cases e.mark .body <;> rfl

/-- A round that ends inside a body has read a byte of it. -/
theorem Fits.readBody {e' : Exec (σ × List Call)} (ho : e.Only (some .body)) (hat : e'.At ph)
    (hok : e'.parser.http_errno = e.parser.http_errno) (hm : e'.mark = (e.setMark .body).mark)
    (hsc : e'.scan = e.scan) (hs : e'.parser.state.inBody = true)
    (h : Agrees e'.parser (e.inHand + 1) ph) : Fits ch (.next e') := by
  refine ⟨((ho.mark_again.congr hok hm hsc).inBody hs).advance ch, ph, hat, ?_⟩
  have hinHand : (e'.advance ch).inHand = e.inHand + 1 := by
    rw [← inHand_setMark e ch]
    simp only [Exec.inHand, Exec.advance, hm]
  rw [hinHand]
  exact h

theorem fits_bodyIdentity (ho : e.Only (some .body)) (hs : e.parser.state = .s_body_identity)
    (hat : e.At ph) (hph : ph = .entity (some (e.parser.content_length + e.inHand)) ∨
      ph = .body (e.parser.content_length + e.inHand)) (hpos : 0 < e.parser.content_length) :
    Fits ch (bodyIdentity settings.traced e ch) := by
  have hm := e.setMark_isSome .body
  apply Fits.ite
  · intro hzero
    have hzero : e.parser.content_length - 1 = 0 := hzero
    have hnext : ∀ l, (e.setMark .body).mark .body = some l →
        ph.next (.data .body (l ++ [ch])) = some (.body 0) := by
      intro l hl
      have hlen : (l ++ [ch]).length = e.parser.content_length + e.inHand := by
        rw [List.length_append, mark_setMark e hl, List.length_singleton]
        omega
      rcases hph with rfl | rfl <;>
        simp only [Reported.next, hlen, Nat.le_refl, if_true, Nat.sub_self]
    refine .data hat hm hnext ?_
    intro e' hp hm' hsc hat'
    exact fits_messageDone (ho.mark_again.cleared (by rw [hp]; rfl) hm' hsc) hat' fun _ => rfl
  · intro hmore
    have hmore : ¬e.parser.content_length - 1 = 0 := hmore
    refine .readBody ho hat rfl rfl rfl ?_ ?_
    · show e.parser.state.inBody = true
      rw [hs]
      rfl
    · show Agrees { e.parser with content_length := e.parser.content_length - 1 } _ ph
      rw [Agrees]
      simp only [hs]
      refine ⟨?_, Nat.pos_of_ne_zero hmore⟩
      rwa [show e.parser.content_length - 1 + (e.inHand + 1) = e.parser.content_length + e.inHand by
        omega]

theorem fits_chunkSizeStart (hi : e.Idle) (hat : e.At ph)
    (hph : (∃ len, ph = .entity len) ∨ ph = .chunks) : Fits ch (chunkSizeStart e ch) := by
  unfold chunkSizeStart
  cases unhex ch with
  | none => exact .fail hat (by decide)
  | some v => exact .rest (hi.congr rfl rfl rfl) hat rfl hph

theorem fits_chunkSize (hi : e.Idle) (hs : e.parser.state = .s_chunk_size) (hat : e.At ph)
    (hph : (∃ len, ph = .entity len) ∨ ph = .chunks) : Fits ch (chunkSize e ch) := by
  refine .ite (fun _ => .rest (hi.goto _) hat rfl hph) fun _ => ?_
  cases unhex ch with
  | none =>
      apply Fits.ite
      · exact fun _ => .rest (hi.goto _) hat rfl hph
      · exact fun _ => .fail hat (by decide)
  | some v =>
      apply Fits.ite
      · exact fun _ => .fail hat (by decide)
      · intro _
        refine .rest (hi.congr rfl rfl rfl) hat ?_ ?_
        · show e.parser.state.quiet = true
          rw [hs]
          rfl
        · rw [Agrees, Exec.parser_modify]
          simp only [hs]
          exact hph

theorem fits_chunkSizeAlmostDone (hi : e.Idle) (hat : e.At ph)
    (hph : (∃ len, ph = .entity len) ∨ ph = .chunks) :
    Fits ch (chunkSizeAlmostDone settings.traced e ch) := by
  have hnext : ph.next (.notify .chunk_header e.parser.content_length) = some
      (if e.parser.content_length = 0 then .lastChunk else .chunk e.parser.content_length) := by
    rcases hph with ⟨len, rfl⟩ | rfl <;> rfl
  apply Fits.strict hat
  apply Fits.ite
  · intro hzero
    have hzero : e.parser.content_length = 0 := hzero
    rw [if_pos hzero] at hnext
    exact .notifyNext (hi.congr rfl rfl rfl) hat hnext rfl rfl
  · intro hsize
    have hsize : ¬e.parser.content_length = 0 := hsize
    rw [if_neg hsize] at hnext
    refine .notify hat hnext ?_
    intro e' hp hm hsc hat'
    refine .restBody (hi.congr ?_ hm hsc) hat' ?_ ?_
    · rw [hp]
      rfl
    · rw [hp]
      rfl
    · rw [hp]
      exact And.intro rfl (Nat.pos_of_ne_zero hsize)

theorem fits_chunkData (ho : e.Only (some .body)) (hs : e.parser.state = .s_chunk_data)
    (hat : e.At (.chunk (e.parser.content_length + e.inHand)))
    (hpos : 0 < e.parser.content_length) : Fits ch (chunkData e) := by
  apply Fits.ite
  · intro hzero
    have hzero : e.parser.content_length - 1 = 0 := hzero
    refine .readBody ho hat rfl rfl rfl rfl ?_
    refine congrArg Reported.chunk ?_
    omega
  · intro hmore
    have hmore : ¬e.parser.content_length - 1 = 0 := hmore
    refine .readBody ho hat rfl rfl rfl ?_ ?_
    · show e.parser.state.inBody = true
      rw [hs]
      rfl
    · show Agrees { e.parser with content_length := e.parser.content_length - 1 } _ _
      rw [Agrees]
      simp only [hs]
      refine ⟨congrArg Reported.chunk ?_, Nat.pos_of_ne_zero hmore⟩
      omega

theorem fits_chunkDataAlmostDone (ho : e.Only (some .body)) (hat : e.At (.chunk e.inHand)) :
    Fits ch (chunkDataAlmostDone settings.traced e ch) := by
  apply Fits.strict hat
  cases hm : e.mark .body with
  | none =>
      -- the bytes of the chunk were reported at the end of a buffer
      have hinHand : e.inHand = 0 := by
        rw [Exec.inHand, hm]
        rfl
      have hi : (e.goto .s_chunk_data_done).Idle := by
        refine ⟨ho.ok, fun x _ => ?_, ho.scan⟩
        by_cases hx : x = .body
        · rw [hx]
          exact hm
        · exact ho.marks x fun heq => hx (Option.some.inj heq).symm
      rw [Exec.callbackData_none (show (e.goto .s_chunk_data_done).mark .body = none from hm)]
      rw [hinHand] at hat
      exact .rest hi hat rfl rfl
  | some l =>
      have hlen : e.inHand = l.length := by
        rw [Exec.inHand, hm]
        rfl
      have hnext : ∀ l', e.mark .body = some l' →
          Reported.next (.chunk e.inHand) (.data .body l') = some (.chunk 0) := by
        intro l' hl'
        have hl' : l = l' := Option.some.inj (hm.symm.trans hl')
        simp only [Reported.next, hlen, hl', Nat.le_refl, if_true, Nat.sub_self]
      exact .dataNext (ho.goto _) hat (by rw [Exec.goto, hm]; rfl) hnext rfl rfl

theorem fits_chunkDataDone (hi : e.Idle) (hat : e.At (.chunk 0)) :
    Fits ch (chunkDataDone settings.traced e ch) := by
  apply Fits.strict hat
  exact .notifyNext (hi.congr rfl rfl rfl) hat rfl rfl (.inr rfl)

theorem fits_switch (h : e.Steady) (hat : e.At ph) (hph : Agrees e.parser e.inHand ph) :
    Fits ch (switch settings.traced e ch) := by
  have hidle : e.parser.state.quiet = true → e.Idle := h.idle
  have hurl : e.parser.state.element = some .url →
      e.Only (some .url) ∧ (e.mark .url).isSome = true := h.url
  have hbody : e.parser.state.inBody = true → e.Only (some .body) := h.onlyBody
  have hsame : e.parser.state.quiet = true → Fits ch (.next e) :=
    fun hs => .rest (h.idle hs) hat hs (hph.outside (by
      simp only [State.quiet, Bool.and_eq_true, Bool.not_eq_true'] at hs
      exact hs.2) 0)
  unfold switch
  unfold Agrees at hph
  cases hst : e.parser.state <;> rw [hst] at hidle hurl hbody hsame hph <;> simp only at hph ⊢
  case s_dead => exact .ite (fun _ => hsame rfl) fun _ => .fail hat (by decide)
  case s_start_req_or_res => exact fits_startReqOrRes (hidle rfl) hst (hph ▸ hat)
  case s_res_or_resp_H => exact fits_resOrRespH (hidle rfl) (hph.1 ▸ hat) hph.2
  case s_start_res => exact fits_startRes (hidle rfl) hst (hph ▸ hat)
  case s_res_H | s_res_HT | s_res_HTT | s_res_HTTP | s_req_http_H | s_req_http_HT |
      s_req_http_HTT | s_req_http_HTTP | s_req_http_I | s_req_http_IC =>
    exact fits_expect (hidle rfl) hat rfl hph
  case s_res_line_almost_done =>
    refine fits_expect (hidle rfl) hat rfl ?_
    rw [hph.1]
    exact (congrArg some hph.2.symm : Reported.lineEnd .status = some e.parser.flags.F_TRAILING)
  case s_header_value_discard_ws_almost_done => exact fits_expect (hidle rfl) hat rfl hph
  case s_res_http_major | s_res_http_minor | s_req_http_major | s_req_http_minor =>
    exact fits_versionDigit (hidle rfl) hat (fun _ _ => rfl) rfl fun _ => hph
  case s_res_http_dot | s_res_http_end | s_req_http_dot =>
    exact .ite (fun _ => .fail hat (by decide)) fun _ =>
      .rest ((hidle rfl).goto _) hat rfl hph
  case s_req_line_almost_done =>
    refine .ite (fun _ => .fail hat (by decide)) fun _ => .rest ((hidle rfl).goto _) hat rfl ?_
    rw [hph.1]
    exact (congrArg some hph.2.symm : Reported.lineEnd .url = some e.parser.flags.F_TRAILING)
  case s_res_first_status_code => exact fits_resFirstStatusCode (hidle rfl) hst (hph.1 ▸ hat) hph.2
  case s_res_status_code => exact fits_resStatusCode (hidle rfl) hst (hph.1 ▸ hat) hph.2
  case s_res_status_start => exact fits_resStatusStart (hidle rfl) (hph.1 ▸ hat) hph.2
  case s_res_status =>
    exact fits_resStatus (h.status hst).1 (h.status hst).2 hst hat hph.1 hph.2
  case s_start_req => exact fits_startReq (hidle rfl) hst (hph ▸ hat)
  case s_req_method => exact fits_reqMethod (hidle rfl) hst (hph.1 ▸ hat) hph.2
  case s_req_spaces_before_url =>
    exact fits_reqSpacesBeforeUrl (hidle rfl) hst (hph.1 ▸ hat) hph.2
  case s_req_schema | s_req_schema_slash | s_req_schema_slash_slash | s_req_server_start =>
    exact fits_reqSchema (hurl rfl).1 (hurl rfl).2 hat hph.1 hph.2
  case s_req_server | s_req_server_with_at | s_req_path | s_req_query_string_start |
      s_req_query_string | s_req_fragment_start | s_req_fragment =>
    exact fits_reqUrl (hurl rfl).1 (hurl rfl).2 hat hph.1 hph.2
  case s_req_http_start => exact fits_reqHttpStart (hidle rfl) hst (hph.1 ▸ hat) hph.2
  case s_req_http_end => exact fits_reqHttpEnd (hidle rfl) (hph.1 ▸ hat) hph.2
  case s_header_field_start => exact fits_headerFieldStart (hidle rfl) hat hph
  case s_header_field => exact fits_headerField h hst hat hph
  case s_header_value_discard_ws => exact fits_headerValueDiscardWs (hidle rfl) hst (hph ▸ hat)
  case s_header_value_discard_lws => exact fits_headerValueDiscardLws (hidle rfl) (hph ▸ hat)
  case s_header_value_start => exact fits_headerValueStart (hidle rfl) hat (.inl hph)
  case s_header_value => exact fits_headerValue h hst hat hph
  case s_header_value_lws => exact fits_headerValueLws (hidle rfl) (hph ▸ hat)
  case s_header_almost_done => exact fits_headerAlmostDone (hidle rfl) (hph ▸ hat)
  case s_headers_almost_done => exact fits_headersAlmostDone (hidle rfl) hat hph
  case s_body_identity => exact fits_bodyIdentity (hbody rfl) hst hat hph.1 hph.2
  case s_body_identity_eof =>
    refine .readBody (hbody rfl) hat rfl rfl rfl (by rw [Exec.parser_setMark, hst]; rfl) ?_
    rw [Agrees, Exec.parser_setMark, hst]
    exact hph
  case s_chunk_size_start => exact fits_chunkSizeStart (hidle rfl) hat hph
  case s_chunk_size => exact fits_chunkSize (hidle rfl) hst hat hph
  case s_chunk_parameters =>
    exact .ite (fun _ => .rest ((hidle rfl).goto _) hat rfl hph) fun _ => hsame rfl
  case s_chunk_size_almost_done => exact fits_chunkSizeAlmostDone (hidle rfl) hat hph
  case s_chunk_data => exact fits_chunkData (hbody rfl) hst (hph.1 ▸ hat) hph.2
  case s_chunk_data_almost_done => exact fits_chunkDataAlmostDone (hbody rfl) (hph ▸ hat)
  case s_chunk_data_done => exact fits_chunkDataDone (hidle rfl) (hph ▸ hat)

end Cases

end Gxh.HttpParser
