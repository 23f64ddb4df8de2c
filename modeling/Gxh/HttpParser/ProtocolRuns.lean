import Gxh.HttpParser.Protocol

/-!
# The callbacks of a stream

The order of the callbacks over calls of `http_parser_execute`, from the single round
(`turn_fits`) to a call (`run_ended`, `execute_ended`) and to all the buffers of a stream
(`callbacks_follow_protocol`). From the order alone follows how much `on_body` gets
(`bodies_have_their_length`).
-/

namespace Gxh.HttpParser

variable {σ : Type}

/-! ## Rounds and calls -/

section Calls

variable {settings : Settings σ} {e : Exec (σ × List Call)}

theorem turn_fits (settings : Settings σ) (h : e.Stands) (ch : UInt8) :
    Fits ch (turn settings.traced e ch) := by
  obtain ⟨ph, hat, hph⟩ := h.phase
  unfold turn
  cases hsc : e.scan with
  | some k =>
      have hsteady : Exec.Steady { e with scan := some (k + 1) } :=
        h.steady.scanning rfl rfl rfl (h.steady.scan (by rw [hsc]; rfl))
      exact fits_switch hsteady hat hph
  | none =>
      apply Fits.ite
      · intro _
        refine .count hat fun n => ?_
        exact fits_switch ⟨h.steady.ok, h.steady.marks, h.steady.body, h.steady.scan⟩ hat
          (hph.congr rfl rfl rfl)
      · exact fun _ => fits_switch h.steady hat hph

/-- One mark at most is left over at the end of a buffer. -/
theorem flush_marked {S : Settings σ} {e : Exec σ} {d : Data} (h : ∀ x, x ≠ d → e.mark x = none) :
    flush S e = e.callbackData S d [] 0 .next := by
  have hrest : ∀ (x : Exec σ) (y : Data), x.mark = Function.update e.mark d none →
      x.mark y = none := by
    intro x y hx
    rw [hx]
    by_cases hy : y = d
    · rw [hy, Function.update_self]
    · rw [Function.update_of_ne hy]
      exact h y hy
  unfold flush
  cases d with
  | header_field =>
      refine callbackData_congr fun x hx => ?_
      rw [Exec.callbackData_none (hrest x .header_value hx),
        Exec.callbackData_none (hrest x .url hx), Exec.callbackData_none (hrest x .body hx),
        Exec.callbackData_none (hrest x .status hx)]
  | header_value =>
      rw [Exec.callbackData_none (h .header_field (by decide))]
      refine callbackData_congr fun x hx => ?_
      rw [Exec.callbackData_none (hrest x .url hx), Exec.callbackData_none (hrest x .body hx),
        Exec.callbackData_none (hrest x .status hx)]
  | url =>
      rw [Exec.callbackData_none (h .header_field (by decide)),
        Exec.callbackData_none (h .header_value (by decide))]
      refine callbackData_congr fun x hx => ?_
      rw [Exec.callbackData_none (hrest x .body hx), Exec.callbackData_none (hrest x .status hx)]
  | body =>
      rw [Exec.callbackData_none (h .header_field (by decide)),
        Exec.callbackData_none (h .header_value (by decide)),
        Exec.callbackData_none (h .url (by decide))]
      exact callbackData_congr fun x hx => Exec.callbackData_none (hrest x .status hx)
  | status =>
      rw [Exec.callbackData_none (h .header_field (by decide)),
        Exec.callbackData_none (h .header_value (by decide)),
        Exec.callbackData_none (h .url (by decide)), Exec.callbackData_none (h .body (by decide))]

/-- The fragment that is reported at the end of a buffer, outside bodies. -/
theorem agrees_element {p : Parser} {ph : Reported} {d : Data} {n : Nat} (h : Agrees p n ph)
    (hel : p.state.element = some d) (l : List UInt8) :
    ∃ ph', ph.next (.data d l) = some ph' ∧ Agrees p 0 ph' := by
  cases hst : p.state <;> rw [hst] at hel <;> cases hel <;> simp only [Agrees, hst] at h ⊢
  case s_res_status.refl => exact ⟨.status, next_status h.1 l, .inr rfl, h.2⟩
  case s_header_field.refl => exact ⟨_, next_field h l, .inr rfl⟩
  case s_header_value.refl => exact ⟨_, next_value h l, .inr rfl⟩
  all_goals exact ⟨.url, if_pos h.1, .inr rfl, h.2⟩

/-- The fragment of a body. -/
theorem agrees_body {p : Parser} {ph : Reported} {l : List UInt8} (h : Agrees p l.length ph)
    (hbody : p.state.inBody = true) :
    ∃ ph', ph.next (.data .body l) = some ph' ∧ Agrees p 0 ph' := by
  cases hst : p.state <;> rw [hst] at hbody <;> cases hbody <;> simp only [Agrees, hst] at h ⊢
  case s_chunk_data.refl =>
    refine ⟨.chunk p.content_length, ?_, rfl, h.2⟩
    simp only [h.1, Reported.next, if_pos (Nat.le_add_left _ _), Nat.add_sub_cancel]
  case s_chunk_data_almost_done.refl =>
    refine ⟨.chunk 0, ?_, rfl⟩
    simp only [h, Reported.next, if_pos (Nat.le_refl _), Nat.sub_self]
  case s_body_identity.refl =>
    refine ⟨.body p.content_length, ?_, .inr rfl, h.2⟩
    rcases h.1 with rfl | rfl <;>
      simp only [Reported.next, if_pos (Nat.le_add_left _ _), Nat.add_sub_cancel]
  case s_body_identity_eof.refl =>
    refine ⟨.stream, ?_, .inr rfl⟩
    rcases h with rfl | rfl <;> rfl

/-- What is left when the fragment was reported, or when no mark was left. -/
theorem flush_ended (settings : Settings σ) (h : e.Stands) :
    ∃ e' n, (flush settings.traced e = .next e' ∨ flush settings.traced e = .stop e' n) ∧
      e'.Ended := by
  obtain ⟨ph, hat, hph⟩ := h.phase
  by_cases hmarks : ∀ d, e.mark d = none
  · refine ⟨e, 0, .inl ?_, ph, hat, fun _ => ?_⟩
    · rw [flush_marked fun x (_ : x ≠ .url) => hmarks x, Exec.callbackData_none (hmarks _)]
    · rw [Exec.inHand, hmarks] at hph
      exact hph
  · obtain ⟨d, hd⟩ := not_forall.mp hmarks
    have hsome : (e.mark d).isSome = true := Option.isSome_iff_ne_none.mpr hd
    have hin : e.parser.state.element = some d ∨ d = .body ∧ e.parser.state.inBody = true := by
      by_cases hdb : d = .body
      · exact .inr ⟨hdb, h.steady.body (hdb ▸ hsome)⟩
      · exact .inl ((h.steady.marks d hdb).mp hsome)
    have honly : ∀ x, x ≠ d → e.mark x = none := by
      intro x hx
      rcases hin with hel | ⟨rfl, hbody⟩
      · refine h.steady.mark_eq_none ?_ fun _ => State.not_inBody hel
        rw [hel]
        exact fun heq => hx (Option.some.inj heq).symm
      · refine h.steady.mark_eq_none ?_ fun heq => absurd heq hx
        rw [State.element_of_inBody hbody]
        intro heq
        cases heq
    obtain ⟨l, hl⟩ := Option.isSome_iff_exists.mp hsome
    have hfragment : ∃ ph', ph.next (.data d l) = some ph' ∧ Agrees e.parser 0 ph' := by
      rcases hin with hel | ⟨rfl, hbody⟩
      · exact agrees_element hph hel l
      · rw [Exec.inHand, hl] at hph
        exact agrees_body hph hbody
    obtain ⟨ph', hnext, hagrees⟩ := hfragment
    have hafter : Reported.after (settings.traced.onData d e.parser l e.user).1.2 = some ph' :=
      (Reported.after_concat hat _).trans hnext
    rw [flush_marked honly, Exec.callbackData_some hl, List.append_nil]
    split
    · exact ⟨_, _, .inr rfl, ph', hafter, fun hok => by cases hok⟩
    · exact ⟨_, 0, .inl rfl, ph', hafter, fun _ => hagrees⟩

/-- What is left of the parser and of the callbacks after a call. -/
def Result.Ended (r : Result (σ × List Call)) : Prop :=
  ∃ ph, Reported.after r.user.2 = some ph ∧ (r.parser.http_errno = .HPE_OK → Agrees r.parser 0 ph)

theorem endOfData_ended (h : e.Stands) (pos : Nat) : (endOfData settings.traced e pos).Ended := by
  have hflush : ∀ x : Exec (σ × List Call), x.Stands →
      ((flush settings.traced x).result pos).Ended := by
    intro x hx
    obtain ⟨e', n, hend, hended⟩ := flush_ended settings hx
    rcases hend with hend | hend <;> rw [hend] <;> exact hended
  unfold endOfData
  cases hsc : e.scan with
  | none => exact hflush e h
  | some k =>
      obtain ⟨ph, hat, hph⟩ := h.phase
      simp only [Exec.countHeaderSize]
      split
      · rename_i hstop
        split at hstop
        · cases hstop
          exact ⟨ph, hat, fun hok => by cases hok⟩
        · cases hstop
      · rename_i hnext
        split at hnext
        · cases hnext
        · cases hnext
          refine hflush _ ⟨⟨h.steady.ok, h.steady.marks, h.steady.body, ?_⟩, ph, hat, ?_⟩
          · intro hscan
            cases hscan
          · exact hph.congr rfl rfl rfl

theorem run_ended (h : e.Stands) (pos : Nat) (data : List UInt8) :
    (run settings.traced e pos data).Ended := by
  induction data generalizing e pos with
  | nil => exact endOfData_ended h pos
  | cons ch rest ih =>
      have hfits := turn_fits settings h ch
      simp only [run]
      cases hturn : turn settings.traced e ch with
      | next e' =>
          rw [hturn] at hfits
          exact ih hfits _
      | stop e' n =>
          rw [hturn] at hfits
          exact hfits

/-- A call on bytes keeps what the calls before it left. -/
theorem execute_ended {p : Parser} {u : σ × List Call} {data : List UInt8}
    (h : Result.Ended ⟨p, u, 0⟩) (hne : data ≠ []) :
    (execute settings.traced p u data).Ended := by
  by_cases hok : p.http_errno = .HPE_OK
  · obtain ⟨ph, hat, hph⟩ := h
    rw [execute_eq_run hok hne]
    refine run_ended ⟨Exec.steady_start hok u, ph, hat, ?_⟩ _ _
    have hinHand : (Exec.start p u).inHand = 0 := by
      simp only [Exec.inHand, Exec.start, if_neg (State.element_ne_body p.state)]
      rfl
    rw [hinHand]
    exact hph hok
  · rw [execute, if_pos hok]
    exact h

/-- The end of the stream completes a message that lasts as long as the stream, or is an error. -/
theorem execute_eof {p : Parser} {u : σ × List Call} (h : Result.Ended ⟨p, u, 0⟩) :
    (Reported.after (execute settings.traced p u []).user.2).isSome = true := by
  obtain ⟨ph, hat, hph⟩ := h
  have hsame : (Reported.after u.2).isSome = true := Option.isSome_iff_exists.mpr ⟨ph, hat⟩
  by_cases hok : p.http_errno = .HPE_OK
  · rw [execute, if_neg (not_not.mpr hok), if_pos rfl, executeEof]
    split
    · rename_i hst
      have hnext : ph.next (.notify .message_complete p.content_length) = some .between := by
        have hph := hph hok
        rw [Agrees, hst] at hph
        rcases hph with rfl | rfl <;> rfl
      have hafter : Reported.after (settings.traced.onNotify .message_complete p u).1.2 =
          some .between :=
        (Reported.after_concat hat _).trans hnext
      have huser : (((Exec.start p u).callbackNotify settings.traced .message_complete 0
          .next).result 0).user = (settings.traced.onNotify .message_complete p u).1 := by
        unfold Exec.callbackNotify
        simp only
        split <;> rfl
      rw [huser, hafter]
      rfl
    all_goals exact hsame
  · rw [execute, if_pos hok]
    exact hsame

end Calls

/-- Calls of `http_parser_execute` on one buffer after the other. -/
def executeAll (settings : Settings σ) (p : Parser) (u : σ) : List (List UInt8) → Parser × σ
  | [] => (p, u)
  | data :: rest =>
      let r := execute settings p u data
      executeAll settings r.parser r.user rest

theorem executeAll_ended {settings : Settings σ} {p : Parser} {u : σ × List Call}
    {buffers : List (List UInt8)} (h : Result.Ended ⟨p, u, 0⟩) (hne : ∀ data ∈ buffers, data ≠ []) :
    Result.Ended ⟨(executeAll settings.traced p u buffers).1,
      (executeAll settings.traced p u buffers).2, 0⟩ := by
  induction buffers generalizing p u with
  | nil => exact h
  | cons data rest ih =>
      rw [List.forall_mem_cons] at hne
      exact ih (execute_ended h hne.1) hne.2

theorem init_ended (type : ParserType) (u : σ) : Result.Ended ⟨.init type, (u, []), 0⟩ :=
  ⟨.between, rfl, fun _ => by cases type <;> rfl⟩

/-- Whatever bytes arrive, in whatever buffers, and whatever the callbacks answer: the callbacks
come in the order of `Reported.next`, in a phase that fits the state of the parser, and so they do
when the stream ends. -/
theorem callbacks_follow_protocol (settings : Settings σ) (type : ParserType) (u : σ)
    {buffers : List (List UInt8)} (hne : ∀ data ∈ buffers, data ≠ []) :
    let r := executeAll settings.traced (.init type) (u, []) buffers
    (∃ ph, Reported.after r.2.2 = some ph ∧ (r.1.http_errno = .HPE_OK → Agrees r.1 0 ph)) ∧
      (Reported.after (execute settings.traced r.1 r.2 []).user.2).isSome = true :=
  have hended := executeAll_ended (init_ended type u) hne
  ⟨hended, execute_eof hended⟩

/-- A response in chunks whose first chunk and trailer are cut, and a byte of the next response. -/
theorem callbacks_follow_protocol_cut :
    let buffers := [bytes "HTTP/1.1 200 OK\r\nTransfer-Encoding: chunked\r\n\r\n5\r\nhe",
      bytes "llo\r\n0\r\nX", bytes "-Sum: 1\r\n\r\nH"]
    let r := executeAll bare.traced (.init .HTTP_RESPONSE) ((), []) buffers
    (∃ ph, Reported.after r.2.2 = some ph ∧ (r.1.http_errno = .HPE_OK → Agrees r.1 0 ph)) ∧
      (Reported.after (execute bare.traced r.1 r.2 []).user.2).isSome = true :=
  callbacks_follow_protocol bare .HTTP_RESPONSE () (by decide)

/-! ## Lengths -/

def Call.isData : Call → Bool
  | .data _ _ => true
  | .notify _ _ => false

/-- How much `on_body` got. -/
def bodyBytes : List Call → Nat
  | [] => 0
  | .data .body l :: calls => l.length + bodyBytes calls
  | _ :: calls => bodyBytes calls

namespace Reported

/-- While a phase counts the bytes that are left, data callbacks report the difference. -/
theorem counted_data {f : Nat → Reported} (hf : ∀ n d l ph, (f n).next (.data d l) = some ph →
      d = .body ∧ ∃ m, ph = f m ∧ m + l.length = n) {calls : List Call} {n : Nat} {ph : Reported}
    (h : calls.foldlM next (f n) = some ph) (hdata : ∀ c ∈ calls, c.isData = true) :
    ∃ m, ph = f m ∧ m + bodyBytes calls = n := by
  induction calls generalizing n with
  | nil =>
      cases h
      exact ⟨n, rfl, rfl⟩
  | cons c calls ih =>
      rw [List.forall_mem_cons] at hdata
      obtain ⟨ph', hc, hrest⟩ := Option.bind_eq_some_iff.mp h
      cases c with
      | notify _ _ => cases hdata.1
      | data d l =>
          obtain ⟨rfl, m, rfl, hm⟩ := hf n d l ph' hc
          obtain ⟨m', hm', hsum⟩ := ih hrest hdata.2
          refine ⟨m', hm', ?_⟩
          simp only [bodyBytes]
          omega

theorem chunk_next (n : Nat) (d : Data) (l : List UInt8) (ph : Reported)
    (h : (chunk n).next (.data d l) = some ph) :
    d = .body ∧ ∃ m, ph = chunk m ∧ m + l.length = n := by
  cases d <;> simp only [next, lineEnd, Option.map_none, reduceCtorEq, or_self, if_false] at h
  split at h
  · cases h
    exact ⟨rfl, _, rfl, by omega⟩
  · cases h

theorem body_next (n : Nat) (d : Data) (l : List UInt8) (ph : Reported)
    (h : (body n).next (.data d l) = some ph) :
    d = .body ∧ ∃ m, ph = body m ∧ m + l.length = n := by
  cases d <;> simp only [next, lineEnd, Option.map_none, reduceCtorEq, or_self, if_false] at h
  split at h
  · cases h
    exact ⟨rfl, _, rfl, by omega⟩
  · cases h

/-- The lines of a trailer are no body. -/
theorem trailer_data {calls : List Call} {ph ph' : Reported}
    (h : calls.foldlM next ph = some ph')
    (hph : ph = .lastChunk ∨ ph = .field true ∨ ph = .value true)
    (hdata : ∀ c ∈ calls, c.isData = true) : bodyBytes calls = 0 := by
  induction calls generalizing ph with
  | nil => rfl
  | cons c calls ih =>
      rw [List.forall_mem_cons] at hdata
      obtain ⟨ph₁, hc, hrest⟩ := Option.bind_eq_some_iff.mp h
      cases c with
      | notify _ _ => cases hdata.1
      | data d l =>
          have hnext : d ≠ .body ∧ (ph₁ = .field true ∨ ph₁ = .value true) := by
            rcases hph with rfl | rfl | rfl <;> cases d <;>
              simp_all [next, lineEnd]
          have hzero := ih hrest (.inr hnext.2) hdata.2
          cases d <;> first | exact hzero | exact absurd rfl hnext.1

theorem after_split {before rest : List Call} {c : Call} {ph : Reported}
    (h : after (before ++ c :: rest) = some ph) :
    ∃ ph₁ ph₂, next ph₁ c = some ph₂ ∧ (rest.foldlM next ph₂).isSome = true := by
  rw [after, List.foldlM_append] at h
  obtain ⟨ph₁, -, hrest⟩ := Option.bind_eq_some_iff.mp h
  obtain ⟨ph₂, hc, hrest⟩ := Option.bind_eq_some_iff.mp hrest
  exact ⟨ph₁, ph₂, hc, Option.isSome_iff_exists.mpr ⟨_, hrest⟩⟩

/-- What is reported between a chunk's header and its end. -/
theorem chunk_length {mid post : List Call} {ph ph' : Reported} {n m : Nat}
    (hph : ph.next (.notify .chunk_header n) = some ph')
    (h : ((mid ++ .notify .chunk_complete m :: post).foldlM next ph').isSome = true)
    (hdata : ∀ c ∈ mid, c.isData = true) : bodyBytes mid = n := by
  obtain ⟨last, hlast⟩ := Option.isSome_iff_exists.mp h
  rw [List.foldlM_append] at hlast
  obtain ⟨ph₁, hmid, hrest⟩ := Option.bind_eq_some_iff.mp hlast
  obtain ⟨ph₂, hdone, -⟩ := Option.bind_eq_some_iff.mp hrest
  have hph' : ph' = if n = 0 then .lastChunk else .chunk n := by
    cases ph <;> simp_all [next]
  by_cases hn : n = 0
  · rw [if_pos hn] at hph'
    rw [hn]
    exact trailer_data hmid (.inl hph') hdata
  · rw [if_neg hn] at hph'
    rw [hph'] at hmid
    obtain ⟨left, rfl, hsum⟩ := counted_data chunk_next hmid hdata
    have hleft : left = 0 := by
      by_contra hne
      simp [next, lineEnd, hne] at hdone
    omega

/-- What is reported between the headers and the end of a message that has a body. -/
theorem entity_length {mid post : List Call} {ph ph' : Reported} {n m : Nat} (hn : n ≠ ULLONG_MAX)
    (hph : ph.next (.notify .headers_complete n) = some ph') (hmid : mid ≠ [])
    (h : ((mid ++ .notify .message_complete m :: post).foldlM next ph').isSome = true)
    (hdata : ∀ c ∈ mid, c.isData = true) : bodyBytes mid = n := by
  obtain ⟨last, hlast⟩ := Option.isSome_iff_exists.mp h
  rw [List.foldlM_append] at hlast
  obtain ⟨ph₁, hread, hrest⟩ := Option.bind_eq_some_iff.mp hlast
  obtain ⟨ph₂, hdone, -⟩ := Option.bind_eq_some_iff.mp hrest
  have hph' : ph' = .entity (some n) := by
    simp only [next, if_neg hn] at hph
    split at hph
    · exact (Option.some.inj hph).symm
    · cases hph
  -- the first fragment starts the count
  have hbody : mid.foldlM next (.body n) = some ph₁ := by
    rw [hph'] at hread
    cases mid with
    | nil => exact absurd rfl hmid
    | cons c mid =>
        cases c with
        | notify _ _ => cases hdata _ List.mem_cons_self
        | data d l => cases d <;> exact hread
  obtain ⟨left, rfl, hsum⟩ := counted_data body_next hbody hdata
  have hleft : left = 0 := by
    by_contra hne
    simp [next, hne] at hdone
  omega

end Reported

/-- The bytes that `on_body` gets of a chunk are as many as its header says, and those of a body
that is not in chunks as many as the headers say. -/
theorem bodies_have_their_length (settings : Settings σ) (type : ParserType) (u : σ)
    {buffers : List (List UInt8)} (hne : ∀ data ∈ buffers, data ≠ []) {pre mid post : List Call}
    {n m : Nat} (hdata : ∀ c ∈ mid, c.isData = true) :
    let calls := (executeAll settings.traced (.init type) (u, []) buffers).2.2
    (calls = pre ++ .notify .chunk_header n :: (mid ++ .notify .chunk_complete m :: post) →
      bodyBytes mid = n) ∧
    (calls = pre ++ .notify .headers_complete n :: (mid ++ .notify .message_complete m :: post) →
      mid ≠ [] → n ≠ ULLONG_MAX → bodyBytes mid = n) := by
  intro calls
  obtain ⟨ph, hafter, -⟩ : Result.Ended ⟨_, _, 0⟩ := executeAll_ended (init_ended type u) hne
  have hafter : Reported.after calls = some ph := hafter
  refine ⟨fun hcalls => ?_, fun hcalls hmid hn => ?_⟩
  · rw [hcalls] at hafter
    obtain ⟨ph₁, ph₂, hc, hrest⟩ := Reported.after_split hafter
    exact Reported.chunk_length hc hrest hdata
  · rw [hcalls] at hafter
    obtain ⟨ph₁, ph₂, hc, hrest⟩ := Reported.after_split hafter
    exact Reported.entity_length hn hc hmid hrest hdata

/-- The two fragments of a chunk of five bytes. -/
theorem bodies_have_their_length_cut :
    bodyBytes [.data .body (bytes "he"), .data .body (bytes "llo")] = 5 :=
  (@bodies_have_their_length Unit bare .HTTP_RESPONSE ()
    [bytes "HTTP/1.1 200 OK\r\nTransfer-Encoding: chunked\r\n\r\n5\r\nhe", bytes "llo\r\n"]
    (by decide)
    [.notify .message_begin ULLONG_MAX, .data .status (bytes "OK"),
      .data .header_field (bytes "Transfer-Encoding"), .data .header_value (bytes "chunked"),
      .notify .headers_complete ULLONG_MAX]
    [.data .body (bytes "he"), .data .body (bytes "llo")] [] 5 0 (by decide)).1 (by decide)

end Gxh.HttpParser
