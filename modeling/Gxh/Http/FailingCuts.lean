import Gxh.HttpParser.Headers
import Gxh.Http.Segmentation

/-!
# Cuts that show

A request whose bytes are cut right after its url fails: the second call reports an empty
fragment of the url, which does not parse. A response that is cut before the colon of a header
files the value under the empty name, because the second call reports the empty rest of the
name. So no request survives all of its cuts, and the responses that do are those without
headers.
-/

namespace Gxh.Http

open HttpParser

/-! ## A cut at the end of the url -/

/-- From the start of a request to the byte after its url. -/
def beforeUrlEnd (s : State) : Bool :=
  s = .s_start_req || s = .s_req_method || s = .s_req_spaces_before_url || s.element = some .url

/-- The states in which a blank or a line end ends the url. -/
def urlEnds : State → Bool
  | .s_req_server | .s_req_server_with_at | .s_req_path | .s_req_query_string_start
  | .s_req_query_string | .s_req_fragment_start | .s_req_fragment => true
  | _ => false

/-- The bytes that do. -/
abbrev EndsUrl (ch : UInt8) : Prop := ch = ' ' ∨ ch = CR ∨ ch = LF

/-- What is left of the url's end: it has not come, and the message is not finished. -/
structure BeforeUrlEnd (e : Exec (Sink HttpRequest)) : Prop where
  steady : e.Steady
  state : beforeUrlEnd e.parser.state = true
  finished : e.user.finished = false

variable {e : Exec (Sink HttpRequest)} {ch : UInt8}

/-- The state and the flag after a round. -/
def Early (e : Exec (Sink HttpRequest)) : Prop :=
  beforeUrlEnd e.parser.state = true ∧ e.user.finished = false

theorem leaves_startReq (hs : e.parser.state = .s_start_req) (hf : e.user.finished = false) :
    (startReq requestSettings e ch).Leaves Early := by
  unfold startReq
  split
  · exact ⟨by rw [hs]; rfl, hf⟩
  · simp only
    split
    · exact nofun
    · split
      · exact nofun
      · exact ⟨rfl, hf⟩

theorem leaves_reqMethod (hs : e.parser.state = .s_req_method) (hf : e.user.finished = false) :
    (reqMethod e ch).Leaves Early := by
  have hkeep : beforeUrlEnd e.parser.state = true := by
    rw [hs]
    rfl
  unfold reqMethod
  split
  · exact nofun
  · simp only
    split
    · exact ⟨rfl, hf⟩
    · split
      · exact ⟨hkeep, hf⟩
      · split
        · split
          · exact nofun
          · exact ⟨hkeep, hf⟩
        · exact nofun

theorem leaves_urlChar (hf : e.user.finished = false) : (urlChar e ch).Leaves Early := by
  unfold urlChar
  simp only
  split
  · exact nofun
  · rename_i hs
    refine ⟨?_, hf⟩
    simp [beforeUrlEnd, parseUrlChar_element hs]

theorem leaves_reqSpacesBeforeUrl (hs : e.parser.state = .s_req_spaces_before_url)
    (hf : e.user.finished = false) : (reqSpacesBeforeUrl e ch).Leaves Early := by
  unfold reqSpacesBeforeUrl
  split
  · exact ⟨by rw [hs]; rfl, hf⟩
  · simp only
    split
    · exact leaves_urlChar hf
    · exact leaves_urlChar hf

theorem leaves_reqSchema (hf : e.user.finished = false) : (reqSchema e ch).Leaves Early := by
  unfold reqSchema
  split
  · exact nofun
  · exact leaves_urlChar hf

theorem leaves_reqUrl (hf : e.user.finished = false) (hch : ¬EndsUrl ch) :
    (reqUrl requestSettings e ch).Leaves Early := by
  unfold reqUrl
  rw [if_neg fun h => hch (.inl h), if_neg fun h => hch (.inr h)]
  exact leaves_urlChar hf

theorem leaves_switch (hs : beforeUrlEnd e.parser.state = true) (hf : e.user.finished = false)
    (hch : urlEnds e.parser.state = true → ¬EndsUrl ch) :
    (switch requestSettings e ch).Leaves Early := by
  unfold switch
  cases hst : e.parser.state <;> rw [hst] at hs hch <;> try cases hs
  case s_start_req => exact leaves_startReq hst hf
  case s_req_method => exact leaves_reqMethod hst hf
  case s_req_spaces_before_url => exact leaves_reqSpacesBeforeUrl hst hf
  case s_req_schema | s_req_schema_slash | s_req_schema_slash_slash | s_req_server_start =>
    exact leaves_reqSchema hf
  all_goals exact leaves_reqUrl hf (hch rfl)

theorem BeforeUrlEnd.scan (h : BeforeUrlEnd e) : e.scan = none := by
  apply h.steady.scan_eq_none
  · intro hst
    have := h.state
    rw [hst] at this
    cases this
  · intro hst
    have := h.state
    rw [hst] at this
    cases this

theorem BeforeUrlEnd.turn (h : BeforeUrlEnd e)
    (hch : urlEnds e.parser.state = true → ¬EndsUrl ch) :
    (turn requestSettings e ch).Leaves Early := by
  unfold HttpParser.turn
  simp only [h.scan]
  split
  · simp only [Exec.countHeaderSize]
    split
    · intro hok
      cases hok
    · exact leaves_switch h.state h.finished hch
  · exact leaves_switch h.state h.finished hch

theorem request_data_finished (d : Data) (p : Parser) (l : List UInt8) (s : Sink HttpRequest) :
    (requestSettings.onData d p l s).1.finished = s.finished := by
  cases d <;> try rfl
  show (onRequestUrlCb l s).1.finished = s.finished
  unfold onRequestUrlCb
  split <;> rfl

/-- A request that ends finished has a byte that ends its url. -/
theorem exists_url_end (h : BeforeUrlEnd e) {xs : List UInt8} {pos : Nat}
    (hok : (run requestSettings e pos xs).parser.http_errno = .HPE_OK)
    (hup : (run requestSettings e pos xs).parser.upgrade = false)
    (hdone : (run requestSettings e pos xs).user.finished = true) :
    ∃ pre, ∃ ch : UInt8, ∃ post e₁, xs = pre ++ ch :: post ∧ walk requestSettings e pre = some e₁ ∧
      urlEnds e₁.parser.state = true ∧ EndsUrl ch := by
  induction xs generalizing e pos with
  | nil =>
      have hkeeps : requestSettings.Keeps fun _ _ u => u.finished = false :=
        fun d p l u _ _ hu => (request_data_finished d p l u).trans hu
      have hfin := endOfData_keeps hkeeps h.finished pos
      rw [show (endOfData requestSettings e pos).user.finished = true from hdone] at hfin
      cases hfin
  | cons ch rest ih =>
      by_cases hend : urlEnds e.parser.state = true ∧ EndsUrl ch
      · exact ⟨[], ch, rest, e, rfl, rfl, hend.1, hend.2⟩
      · have hs := turn_sound (hom_bare requestSettings) request_keepsBody h.steady ch
        have hleaves := h.turn fun hst hch => hend ⟨hst, hch⟩
        simp only [run] at hok hup hdone
        cases ht : turn requestSettings e ch with
        | stop e₂ n =>
            rw [ht] at hok hup hs
            have htrue := hs.stopped e₂ n rfl hok
            rw [show e₂.parser.upgrade = false from hup] at htrue
            cases htrue
        | next e₂ =>
            rw [ht] at hok hup hdone hs hleaves
            have h₂ : BeforeUrlEnd (e₂.advance ch) :=
              ⟨(hs.steady e₂ rfl).advance ch, hleaves.1, hleaves.2⟩
            obtain ⟨pre, c, post, e₁, rfl, hwalk, hurl, hc⟩ := ih h₂ hok hup hdone
            refine ⟨ch :: pre, c, post, e₁, rfl, ?_, hurl, hc⟩
            simp only [walk, ht]
            exact hwalk

/-- No url to parse is an error. -/
theorem empty_url_fails (hm : e.mark .url = some []) :
    ∃ e₁, e.callbackData requestSettings .url [] 1 .next = .stop e₁ 1 ∧
      e₁.parser.http_errno ≠ .HPE_OK := by
  rw [Exec.callbackData_some hm]
  exact ⟨_, rfl, nofun⟩

theorem switch_at_url_end (hs : urlEnds e.parser.state = true) (hm : e.mark .url = some [])
    (hch : EndsUrl ch) :
    ∃ e₁, switch requestSettings e ch = .stop e₁ 1 ∧ e₁.parser.http_errno ≠ .HPE_OK := by
  have hreq : switch requestSettings e ch = reqUrl requestSettings e ch := by
    unfold switch
    cases hst : e.parser.state <;> rw [hst] at hs <;> first | rfl | cases hs
  rw [hreq]
  unfold reqUrl
  by_cases hsp : ch = ' '
  · rw [if_pos hsp]
    exact empty_url_fails hm
  · rw [if_neg hsp, if_pos (hch.resolve_left hsp)]
    exact empty_url_fails hm

/-- A call that starts at the end of the url gives the callback an empty one. -/
theorem execute_at_url_end {p : Parser} {u : Sink HttpRequest} {post : List UInt8}
    (hp : p.http_errno = .HPE_OK) (hs : urlEnds p.state = true) (hch : EndsUrl ch) :
    (HttpParser.execute requestSettings p u (ch :: post)).parser.http_errno ≠ .HPE_OK := by
  have hst : p.state.parsingHeader = true ∧ p.state.element = some .url := by
    cases hst : p.state <;> rw [hst] at hs <;> first | exact ⟨rfl, rfl⟩ | cases hs
  have hmark : (Exec.start p u).mark .url = some [] := by
    simp [Exec.start, hst.2]
  have hturn : ∃ e₁ n, turn requestSettings (.start p u) ch = .stop e₁ n ∧
      e₁.parser.http_errno ≠ .HPE_OK := by
    unfold turn
    simp only [show (Exec.start p u).scan = none from rfl,
      show (Exec.start p u).parser = p from rfl, hst.1, if_true, Exec.countHeaderSize]
    split
    · refine ⟨_, _, rfl, ?_⟩
      intro hok
      cases hok
    · obtain ⟨e₁, heq, hne⟩ := switch_at_url_end
        (e := (Exec.start p u).modify fun p => { p with nread := (p.nread + 1) % 2 ^ 32 })
        hs hmark hch
      exact ⟨e₁, 1, heq, hne⟩
  obtain ⟨e₁, n, hstop, hne⟩ := hturn
  rw [execute_eq_run hp (List.cons_ne_nil ch post), HttpParser.run, hstop]
  exact hne

/-- Every request has a cut that makes its parsing fail: the one right after its url. -/
theorem exists_failing_cut {data : List UInt8} (h : AcceptedRequest data)
    (hdone : (HttpRequestParser.new.execute data).1.isFinished = true) :
    ∃ xs ys, data = xs ++ ys ∧ xs ≠ [] ∧ ys ≠ [] ∧
      (HttpRequestParser.new.feed [xs, ys]).hasError = true := by
  have hok := hasError_eq_false.mp h.1
  have hdata : data ≠ [] := by
    rintro rfl
    cases hdone
  have hstart : BeforeUrlEnd
      (Exec.start HttpRequestParser.new.parser HttpRequestParser.new.sink) :=
    ⟨Exec.steady_start rfl _, rfl, rfl⟩
  have hdone' : (HttpParser.execute requestSettings HttpRequestParser.new.parser
    HttpRequestParser.new.sink data).user.finished = true := hdone
  have hup := upgrade_of_ok hok
  have hup' : (HttpParser.execute requestSettings HttpRequestParser.new.parser
    HttpRequestParser.new.sink data).parser.upgrade = false := hup
  have hok' := errno_of_ok hok
  rw [execute_eq_run rfl hdata] at hdone' hup' hok'
  obtain ⟨pre, ch, post, e₁, rfl, hwalk, hend, hch⟩ := exists_url_end hstart hok' hup' hdone'
  have hpre : pre ≠ [] := by
    rintro rfl
    cases hwalk
    cases hend
  refine ⟨pre, ch :: post, rfl, hpre, nofun, ?_⟩
  -- after the first call the parser stands at the end of the url
  have hfirst : HttpParser.execute requestSettings HttpRequestParser.new.parser
      HttpRequestParser.new.sink pre = endOfData requestSettings e₁ pre.length :=
    execute_of_walk rfl hpre hwalk
  have hstate := (endOfData_place requestSettings e₁ pre.length).2
  apply executeWith_errno
  show (HttpParser.execute requestSettings (HttpParser.execute requestSettings
    HttpRequestParser.new.parser HttpRequestParser.new.sink pre).parser _
    (ch :: post)).parser.http_errno ≠ .HPE_OK
  rw [hfirst]
  by_cases herr : (endOfData requestSettings e₁ pre.length).parser.http_errno = .HPE_OK
  · exact execute_at_url_end herr (hstate ▸ hend) hch
  · unfold HttpParser.execute
    rw [if_pos herr]
    exact herr

/-! ## A cut before the colon of a header -/

/-- A map with an entry under the empty key. -/
def HeaderMap.Unnamed (m : HeaderMap) : Prop := ∃ entry ∈ m, cStr entry.1 = []

namespace HeaderMap

variable {m : HeaderMap} {key : List UInt8}

theorem unnamed_set_nil (m : HeaderMap) (hkey : cStr key = []) (val : List UInt8) :
    (m.set key val).Unnamed := by
  cases m with
  | nil => exact ⟨(key, val), List.mem_singleton_self _, hkey⟩
  | cons entry rest =>
      obtain ⟨k, v⟩ := entry
      have hless : caseInsensitiveLess k key = false := by
        unfold caseInsensitiveLess
        rw [hkey]
        cases cStr k <;> rfl
      unfold set
      rw [hless, if_neg Bool.false_ne_true]
      cases hk : cStr k with
      | nil =>
          split
          · exact ⟨(key, val), List.mem_cons_self, hkey⟩
          · exact ⟨(k, val), List.mem_cons_self, hk⟩
      | cons c cs =>
          rw [if_pos (by unfold caseInsensitiveLess; rw [hkey, hk]; rfl)]
          exact ⟨(key, val), List.mem_cons_self, hkey⟩

theorem Unnamed.set (h : m.Unnamed) (key val : List UInt8) : (m.set key val).Unnamed := by
  induction m with
  | nil =>
      obtain ⟨entry, hmem, -⟩ := h
      cases hmem
  | cons entry rest ih =>
      obtain ⟨k, v⟩ := entry
      obtain ⟨x, hmem, hx⟩ := h
      unfold HeaderMap.set
      split
      · rcases List.mem_cons.mp hmem with rfl | hrest
        · exact ⟨(k, v), List.mem_cons_self, hx⟩
        · obtain ⟨y, hy, hnil⟩ := ih ⟨x, hrest, hx⟩
          exact ⟨y, List.mem_cons_of_mem _ hy, hnil⟩
      · split
        · exact ⟨x, List.mem_cons_of_mem _ hmem, hx⟩
        · rcases List.mem_cons.mp hmem with rfl | hrest
          · exact ⟨(k, val), List.mem_cons_self, hx⟩
          · exact ⟨x, List.mem_cons_of_mem _ hrest, hx⟩

theorem unnamed_of_set {val : List UInt8} (hkey : cStr key ≠ []) (h : (m.set key val).Unnamed) :
    m.Unnamed := by
  induction m with
  | nil =>
      obtain ⟨x, hmem, hx⟩ := h
      cases List.mem_singleton.mp hmem
      exact absurd hx hkey
  | cons entry rest ih =>
      obtain ⟨k, v⟩ := entry
      obtain ⟨x, hmem, hx⟩ := h
      unfold HeaderMap.set at hmem
      split at hmem
      · rcases List.mem_cons.mp hmem with rfl | hrest
        · exact ⟨(k, v), List.mem_cons_self, hx⟩
        · obtain ⟨y, hy, hnil⟩ := ih ⟨x, hrest, hx⟩
          exact ⟨y, List.mem_cons_of_mem _ hy, hnil⟩
      · split at hmem
        · rcases List.mem_cons.mp hmem with rfl | hrest
          · exact absurd hx hkey
          · exact ⟨x, hrest, hx⟩
        · rcases List.mem_cons.mp hmem with rfl | hrest
          · exact ⟨(k, v), List.mem_cons_self, hx⟩
          · exact ⟨x, List.mem_cons_of_mem _ hrest, hx⟩

end HeaderMap

section Response

variable {s s' : Sink HttpResponse} {ph ph' : Phase}

theorem response_others (h : Others responseSettings s s') :
    s'.data.headers = s.data.headers ∧ s'.field = s.field := by
  induction h with
  | none => exact ⟨rfl, rfl⟩
  | notify n p _ ih => cases n <;> exact ih
  | data d p l hf hv _ ih =>
      cases d
      case header_field => exact absurd rfl hf
      case header_value => exact absurd rfl hv
      all_goals exact ih

/-- One call on a whole response: every header has a name. -/
structure Named (ph : Phase) (s : Sink HttpResponse) : Prop where
  headers : ¬s.data.headers.Unnamed
  line : match ph with
    | .outside => True
    | .name l => cStr l ≠ []
    | .value | .after => cStr s.field ≠ []

theorem cStr_token {c : UInt8} (h : token c ≠ 0) (l : List UInt8) : cStr (c :: l) ≠ [] := by
  have hc : c ≠ 0 := by
    rintro rfl
    exact h rfl
  simp [cStr, hc]

theorem cStr_append {l : List UInt8} (h : cStr l ≠ []) (c : UInt8) : cStr (l ++ [c]) ≠ [] := by
  cases l with
  | nil => exact absurd rfl h
  | cons a rest =>
      unfold cStr at h ⊢
      rw [List.cons_append, List.takeWhile_cons]
      rw [List.takeWhile_cons] at h
      split at h
      · rename_i ha
        rw [if_pos ha]
        exact List.cons_ne_nil _ _
      · exact absurd rfl h

theorem Named.step (hs : HeaderStep responseSettings ch ph s ph' s') (h : Named ph s) :
    Named ph' s' := by
  have hset : ∀ l, cStr s.field ≠ [] → ¬(s.data.headers.set s.field l).Unnamed :=
    fun l hf hun => h.headers (HeaderMap.unnamed_of_set hf hun)
  cases hs with
  | outside ho | leave ho =>
      refine ⟨?_, trivial⟩
      rw [(response_others ho).1]
      exact h.headers
  | start hc | again hc => exact ⟨h.headers, cStr_token hc []⟩
  | grow hc => exact ⟨h.headers, cStr_append h.line ch⟩
  | field p hc => exact ⟨h.headers, h.line⟩
  | value | after | fold => exact ⟨h.headers, h.line⟩
  | report p l => exact ⟨hset l h.line, h.line⟩
  | empty_leave p l ho =>
      refine ⟨?_, trivial⟩
      rw [(response_others ho).1]
      exact hset l h.line
  | empty_again p l hc => exact ⟨hset l h.line, cStr_token hc []⟩

/-- A call that starts at the colon: the value goes under the empty name, and until then the
response is not finished. -/
def Nameless (ph : Phase) (s : Sink HttpResponse) : Prop :=
  s.data.headers.Unnamed ∨ ph = .value ∧ s.field = [] ∧ s.finished = false

theorem Nameless.step (hs : HeaderStep responseSettings ch ph s ph' s') (h : Nameless ph s) :
    Nameless ph' s' := by
  have hset : ∀ l, ph = .value → (s.data.headers.set s.field l).Unnamed := by
    intro l _
    rcases h with hun | ⟨-, hf, -⟩
    · exact hun.set _ _
    · exact HeaderMap.unnamed_set_nil _ (by rw [hf]; rfl) l
  have hkeep : ph ≠ .value → s.data.headers.Unnamed := fun hne =>
    h.resolve_right fun hv => hne hv.1
  cases hs with
  | outside ho | leave ho =>
      left
      rw [(response_others ho).1]
      exact hkeep nofun
  | start hc | again hc | grow hc => exact .inl (hkeep nofun)
  | field p hc => exact .inl (hkeep nofun)
  | value => exact h
  | after | fold => exact .inl (hkeep nofun)
  | report p l => exact .inl (hset l rfl)
  | empty_leave p l ho =>
      left
      rw [(response_others ho).1]
      exact hset l rfl
  | empty_again p l hc => exact .inl (hset l rfl)

theorem Nameless.start (hs : HeaderStep responseSettings ':' (.name []) s ph' s')
    (hfin : s.finished = false) : Nameless ph' s' := by
  cases hs with
  | grow hc => exact absurd rfl hc
  | field p hc => exact .inr ⟨rfl, rfl, hfin⟩

theorem response_data_finished (d : Data) (p : Parser) (l : List UInt8) (s : Sink HttpResponse) :
    (responseSettings.onData d p l s).1.finished = s.finished := by
  cases d <;> rfl

theorem response_keeps_unnamed :
    responseSettings.Keeps fun _ _ s => s.data.headers.Unnamed := by
  intro d p l s _ _ h
  cases d
  case header_value => exact h.set _ _
  all_goals exact h

/-- To the end of a call that starts at the colon. -/
theorem Nameless.run {e : Exec (Sink HttpResponse)} (h : e.OnResponse)
    (hn : Nameless e.phase e.user) {xs : List UInt8} {pos : Nat}
    (hok : (HttpParser.run responseSettings e pos xs).parser.http_errno = .HPE_OK) :
    (HttpParser.run responseSettings e pos xs).user.data.headers.Unnamed ∨
      (HttpParser.run responseSettings e pos xs).user.finished = false := by
  induction xs generalizing e pos with
  | nil =>
      rcases hn with hun | ⟨-, -, hfin⟩
      · exact .inl (endOfData_keeps response_keeps_unnamed hun pos)
      · have hkeeps : responseSettings.Keeps fun _ _ s => s.finished = false :=
          fun d p l s _ _ hs => (response_data_finished d p l s).trans hs
        exact .inr (endOfData_keeps hkeeps hfin pos)
  | cons ch rest ih =>
      simp only [HttpParser.run] at hok ⊢
      cases ht : turn responseSettings e ch with
      | stop e₂ n =>
          rw [ht] at hok
          have hs := turn_stop_headers response_keepsBody h ht hok
          exact (hn.step hs).imp id fun hv => hv.2.2
      | next e₂ =>
          rw [ht] at hok
          obtain ⟨h₂, hs⟩ := turn_headers response_keepsBody h ht
          exact ih h₂ (hn.step hs) hok

/-- A call on the bytes from a colon on. -/
theorem execute_at_colon {p : Parser} {s : Sink HttpResponse} {post : List UInt8}
    (hp : p.http_errno = .HPE_OK) (ht : p.type = .HTTP_RESPONSE)
    (hst : p.state = .s_header_field) (hfin : s.finished = false)
    (hok : (HttpParser.execute responseSettings p s (':' :: post)).parser.http_errno = .HPE_OK) :
    (HttpParser.execute responseSettings p s (':' :: post)).user.data.headers.Unnamed ∨
      (HttpParser.execute responseSettings p s (':' :: post)).user.finished = false := by
  have hstart : (Exec.start p s).OnResponse :=
    ⟨Exec.steady_start hp s, ht, by rw [show (Exec.start p s).parser.state = _ from hst]; rfl⟩
  have hphase : (Exec.start p s).phase = .name [] := by
    simp [Exec.phase, Exec.start, hst, State.phase, State.element]
  rw [execute_eq_run hp (List.cons_ne_nil _ _), HttpParser.run] at hok ⊢
  cases hturn : turn responseSettings (.start p s) ':' with
  | stop e₂ n =>
      rw [hturn] at hok
      have hs := turn_stop_headers response_keepsBody hstart hturn hok
      rw [hphase] at hs
      exact (Nameless.start hs hfin).imp id fun hv => hv.2.2
  | next e₂ =>
      rw [hturn] at hok
      obtain ⟨h₂, hs⟩ := turn_headers response_keepsBody hstart hturn
      rw [hphase] at hs
      exact (Nameless.start hs hfin).run h₂ hok

end Response

/-- One whole response: one call takes it without an error and finishes it with its last byte,
after which the parser is between two messages. -/
structure WholeResponse (data : List UInt8) : Prop where
  accepted : AcceptedResponse data
  finished : (HttpResponseParser.new.execute data).1.isFinished = true
  unfinished : ∀ n < data.length,
    (HttpResponseParser.new.execute (data.take n)).1.isFinished = false
  between : (scanned .HTTP_RESPONSE data).state = .s_start_res ∨
    (scanned .HTTP_RESPONSE data).state = .s_dead

/-- No header line: the parser is never inside a header field or value. -/
def NoHeader (data : List UInt8) : Prop :=
  ∀ n ≤ data.length, (scanned .HTTP_RESPONSE (data.take n)).state.clear = true

namespace WholeResponse

variable {data : List UInt8}

theorem ne_nil (h : WholeResponse data) : data ≠ [] := by
  rintro rfl
  cases h.finished

/-- The locals at the start of a response. -/
theorem onResponse_start :
    (Exec.start HttpResponseParser.new.parser HttpResponseParser.new.sink).OnResponse :=
  ⟨Exec.steady_start rfl _, rfl, rfl⟩

/-- The rounds of the one call, up to any byte. -/
theorem exists_walk (h : WholeResponse data) {xs ys : List UInt8} (hdata : data = xs ++ ys) :
    ∃ e₁, walk responseSettings (.start HttpResponseParser.new.parser
      HttpResponseParser.new.sink) xs = some e₁ ∧
      (xs ≠ [] → (scanned .HTTP_RESPONSE xs).state = e₁.parser.state) := by
  have hok : (HttpParser.execute responseSettings HttpResponseParser.new.parser
      HttpResponseParser.new.sink data).parser.http_errno = .HPE_OK :=
    errno_of_ok (hasError_eq_false.mp h.accepted.1)
  have hup : (HttpParser.execute responseSettings HttpResponseParser.new.parser
      HttpResponseParser.new.sink data).parser.upgrade = false := h.accepted.upgrade
  rw [execute_eq_run rfl h.ne_nil, hdata] at hok hup
  obtain ⟨e₁, hwalk⟩ := walk_of_run response_keepsBody onResponse_start.steady hok hup
  refine ⟨e₁, hwalk, fun hx => ?_⟩
  have hbare := (walk_steady (hom_bare responseSettings) response_keepsBody
    onResponse_start.steady hwalk).2
  have hscan : HttpParser.execute bare (.init .HTTP_RESPONSE) () xs =
      endOfData bare (e₁.map fun _ => ()) xs.length := execute_of_walk rfl hx hbare
  rw [scanned, hscan]
  exact (endOfData_place _ _ _).2

/-- All the rounds of the one call: they end outside header lines. -/
theorem whole_walk (h : WholeResponse data) :
    ∃ e₁, walk responseSettings (.start HttpResponseParser.new.parser
      HttpResponseParser.new.sink) data = some e₁ ∧ e₁.OnResponse ∧ e₁.phase = .outside ∧
      ¬(HttpResponseParser.new.execute data).1.getData.headers.Unnamed := by
  obtain ⟨e₁, hwalk, hstate⟩ := h.exists_walk (List.append_nil data).symm
  have hout : e₁.phase = .outside := by
    have hst := hstate h.ne_nil
    unfold Exec.phase
    rcases h.between with hb | hb
    · rw [← hst, hb]
      rfl
    · rw [← hst, hb]
      rfl
  have hstart : Named .outside HttpResponseParser.new.sink := by
    refine ⟨?_, trivial⟩
    rintro ⟨entry, hmem, -⟩
    cases hmem
  obtain ⟨hresp, hnamed⟩ := walk_headers response_keepsBody (fun _ _ _ _ _ => Named.step)
    onResponse_start hwalk hstart
  refine ⟨e₁, hwalk, hresp, hout, ?_⟩
  have hexec : HttpParser.execute responseSettings HttpResponseParser.new.parser
      HttpResponseParser.new.sink data = endOfData responseSettings e₁ data.length :=
    execute_of_walk rfl h.ne_nil hwalk
  show ¬(HttpParser.execute responseSettings HttpResponseParser.new.parser
    HttpResponseParser.new.sink data).user.data.headers.Unnamed
  rw [hexec, (response_others (endOfData_others hresp hout data.length)).1]
  exact hnamed.headers

/-- A response with a header has a cut that shows: the one before the colon of a header. -/
theorem exists_cut (h : WholeResponse data) (hheader : ¬NoHeader data) :
    ∃ xs ys, data = xs ++ ys ∧ xs ≠ [] ∧ ys ≠ [] ∧
      ¬Agree (HttpResponseParser.new.execute data).1 (HttpResponseParser.new.feed [xs, ys]) := by
  obtain ⟨e₁, hwalk, hresp, hout, hnamed⟩ := h.whole_walk
  -- the cut
  have hname : ∃ pre post e₂ l, data = pre ++ post ∧
      walk responseSettings (.start HttpResponseParser.new.parser
        HttpResponseParser.new.sink) pre = some e₂ ∧ e₂.OnResponse ∧ e₂.phase = .name l := by
    unfold NoHeader at hheader
    push Not at hheader
    obtain ⟨n, hn, hclear⟩ := hheader
    obtain ⟨e₂, hwalk₂, hstate⟩ := h.exists_walk (List.take_append_drop n data).symm
    have hne : data.take n ≠ [] := by
      intro hnil
      rw [hnil] at hclear
      exact hclear rfl
    have hunclear : e₂.parser.state.clear = false := by
      rw [← hstate hne]
      exact Bool.not_eq_true _ ▸ hclear
    obtain ⟨pre, post, e₃, l, hpre, hrest⟩ := exists_name response_keepsBody onResponse_start
      hwalk₂ rfl hunclear
    refine ⟨pre, post ++ data.drop n, e₃, l, ?_, hrest⟩
    rw [← List.append_assoc, ← hpre, List.take_append_drop]
  obtain ⟨pre, post, e₂, l, rfl, hpre, hresp₂, hphase⟩ := hname
  rw [walk_append hpre] at hwalk
  obtain ⟨pre', rest, e₃, rfl, hpre', hst⟩ := exists_colon response_keepsBody hresp₂ hwalk hphase
    hout
  have hcut := (walk_append hpre pre').trans hpre'
  have hxs : pre ++ pre' ≠ [] := by
    intro hnil
    rw [hnil] at hcut
    cases hcut
    cases hst
  have hresp₃ : e₃.OnResponse := (walk_headers (Q := fun _ _ => True) response_keepsBody
    (fun _ _ _ _ _ _ _ => trivial) hresp₂ hpre' trivial).1
  refine ⟨pre ++ pre', ':' :: rest, (List.append_assoc _ _ _).symm, hxs, List.cons_ne_nil _ _, ?_⟩
  rintro ⟨hfinished, herror, hdata⟩
  -- the first call ends inside the field name, before the response is finished
  obtain ⟨htype, hstate⟩ := endOfData_place responseSettings e₃ (pre ++ pre').length
  have hfirst : HttpParser.execute responseSettings HttpResponseParser.new.parser
      HttpResponseParser.new.sink (pre ++ pre') = endOfData responseSettings e₃ _ :=
    execute_of_walk rfl hxs hcut
  have hunfinished := h.unfinished (pre ++ pre').length (by simp)
  rw [← List.append_assoc, List.take_left] at hunfinished
  have hfirstFin : (HttpParser.execute responseSettings HttpResponseParser.new.parser
      HttpResponseParser.new.sink (pre ++ pre')).user.finished = false := hunfinished
  -- the second call starts at the colon
  have hok : (HttpParser.execute responseSettings (HttpParser.execute responseSettings
      HttpResponseParser.new.parser HttpResponseParser.new.sink (pre ++ pre')).parser
      (HttpParser.execute responseSettings HttpResponseParser.new.parser
        HttpResponseParser.new.sink (pre ++ pre')).user
      (':' :: rest)).parser.http_errno = .HPE_OK :=
    errno_of_ok (hasError_eq_false.mp (herror.trans h.accepted.1))
  rw [hfirst] at hok hfirstFin
  have hfirstOk : (endOfData responseSettings e₃ (pre ++ pre').length).parser.http_errno =
      .HPE_OK := by
    by_contra hne
    unfold HttpParser.execute at hok
    rw [if_pos hne] at hok
    exact hne hok
  have hsplit := execute_at_colon hfirstOk (htype.trans hresp₃.type) (hstate.trans hst)
    hfirstFin hok
  rw [← hfirst] at hsplit
  rcases hsplit with hun | hfin
  · apply hnamed
    rw [← hdata]
    exact hun
  · have hfin' : (HttpResponseParser.new.feed [pre ++ pre', ':' :: rest]).isFinished = false :=
      hfin
    rw [hfinished, h.finished] at hfin'
    cases hfin'

end WholeResponse

/-! ## Which messages survive their cuts -/

/-- `data` may arrive in any pieces. -/
def RequestSurvives (data : List UInt8) : Prop :=
  ∀ pieces : List (List UInt8), (∀ x ∈ pieces, x ≠ []) → pieces.flatten = data →
    Agree (HttpRequestParser.new.execute data).1 (HttpRequestParser.new.feed pieces)

def ResponseSurvives (data : List UInt8) : Prop :=
  ∀ pieces : List (List UInt8), (∀ x ∈ pieces, x ≠ []) → pieces.flatten = data →
    Agree (HttpResponseParser.new.execute data).1 (HttpResponseParser.new.feed pieces)

theorem agree_of_eq {μ : Type} {m m' : MessageParser μ} (h : m' = m) : Agree m m' := by
  subst h
  exact ⟨rfl, rfl, rfl⟩

theorem not_requestSurvives {data : List UInt8} (h : AcceptedRequest data)
    (hdone : (HttpRequestParser.new.execute data).1.isFinished = true) :
    ¬RequestSurvives data := by
  intro hall
  obtain ⟨xs, ys, rfl, hx, hy, herr⟩ := exists_failing_cut h hdone
  have hagree := hall [xs, ys] (by simp [hx, hy]) (by simp)
  rw [hagree.2.1, h.1] at herr
  cases herr

theorem NoHeader.cutsClear {data : List UInt8} (h : NoHeader data) {pieces : List (List UInt8)}
    (hflat : pieces.flatten = data) : CutsClear .HTTP_RESPONSE pieces := by
  rintro pre post rfl _ _
  rw [List.flatten_append] at hflat
  have hn := h pre.flatten.length (by rw [← hflat, List.length_append]; omega)
  rwa [← hflat, List.take_left] at hn

theorem responseSurvives_iff {data : List UInt8} (h : WholeResponse data) :
    ResponseSurvives data ↔ NoHeader data := by
  constructor
  · intro hall
    by_contra hheader
    obtain ⟨xs, ys, rfl, hx, hy, hne⟩ := h.exists_cut hheader
    exact hne (hall [xs, ys] (by simp [hx, hy]) (by simp))
  · rintro hno pieces hne rfl
    exact agree_of_eq (response_pieces hne h.accepted (hno.cutsClear rfl))

/-- Pieces do not show if no piece but the last ends inside a url, a header field or a header
value. Cut anywhere else, no finished request survives, and of the whole responses those
without headers. -/
theorem segmentation (data : List UInt8) :
    (AcceptedRequest data →
      (∀ pieces : List (List UInt8), (∀ x ∈ pieces, x ≠ []) → pieces.flatten = data →
        CutsClear .HTTP_REQUEST pieces →
        Agree (HttpRequestParser.new.execute data).1 (HttpRequestParser.new.feed pieces)) ∧
      ((HttpRequestParser.new.execute data).1.isFinished = true → ¬RequestSurvives data)) ∧
    (AcceptedResponse data →
      ∀ pieces : List (List UInt8), (∀ x ∈ pieces, x ≠ []) → pieces.flatten = data →
        CutsClear .HTTP_RESPONSE pieces →
        Agree (HttpResponseParser.new.execute data).1 (HttpResponseParser.new.feed pieces)) ∧
    (WholeResponse data → (ResponseSurvives data ↔ NoHeader data)) := by
  refine ⟨fun h => ⟨?_, not_requestSurvives h⟩, ?_, responseSurvives_iff⟩
  · rintro pieces hne rfl hclear
    exact agree_of_eq (request_pieces hne h hclear)
  · rintro h pieces hne rfl hclear
    exact agree_of_eq (response_pieces hne h hclear)

def smallGet : List UInt8 := bytes "GET / HTTP/1.1\r\na: bc\r\n\r\n"

def noContent : List UInt8 := bytes "HTTP/1.1 204 None\r\n\r\n"

def emptyOk : List UInt8 := bytes "HTTP/1.1 200 OK\r\nContent-Length: 0\r\n\r\n"

theorem acceptedRequest_smallGet : AcceptedRequest smallGet := by
  constructor
  · decide +kernel
  · unfold NoUpgrade
    decide +kernel

theorem whole_noContent : WholeResponse noContent where
  accepted := by
    constructor
    · decide +kernel
    · unfold NoUpgrade
      decide +kernel
  finished := by decide +kernel
  unfinished := by decide +kernel
  between := by decide +kernel

theorem whole_emptyOk : WholeResponse emptyOk where
  accepted := by
    constructor
    · decide +kernel
    · unfold NoUpgrade
      decide +kernel
  finished := by decide +kernel
  unfinished := by decide +kernel
  between := by decide +kernel

theorem segmentation_small :
    Agree (HttpRequestParser.new.execute smallGet).1
      (HttpRequestParser.new.feed [smallGet.take 16, smallGet.drop 16]) ∧
    ¬RequestSurvives smallGet ∧ ResponseSurvives noContent ∧ ¬ResponseSurvives emptyOk := by
  refine ⟨?_, ?_, ?_, ?_⟩
  · refine ((segmentation smallGet).1 acceptedRequest_smallGet).1
      [smallGet.take 16, smallGet.drop 16] (by decide +kernel) (by decide +kernel) ?_
    rintro (_ | ⟨a, _ | ⟨b, _ | ⟨c, rest⟩⟩⟩) post heq hpre hpost
    · exact absurd rfl hpre
    · cases heq
      decide +kernel
    · cases heq
      exact absurd rfl hpost
    · cases heq
  · exact ((segmentation smallGet).1 acceptedRequest_smallGet).2 (by decide +kernel)
  · refine ((segmentation noContent).2.2 whole_noContent).mpr ?_
    unfold NoHeader
    decide +kernel
  · intro h
    have hno := ((segmentation emptyOk).2.2 whole_emptyOk).mp h
    have hcut := hno 20 (by decide +kernel)
    revert hcut
    decide +kernel

/-- A header value in two pieces: the second takes the place of the first. -/
theorem cut_value_shows :
    AcceptedRequest smallGet ∧
      (HttpRequestParser.new.execute smallGet).1.isFinished = true ∧
      (HttpRequestParser.new.execute smallGet).1.getData.getHeader (bytes "a") = bytes "bc" ∧
      (HttpRequestParser.new.feed [smallGet.take 20, smallGet.drop 20]).getData.getHeader
        (bytes "a") = bytes "c" ∧
      (HttpRequestParser.new.feed [smallGet.take 20, smallGet.drop 20]).hasError = false ∧
      ¬∀ data, AcceptedRequest data → ∀ pieces : List (List UInt8), (∀ x ∈ pieces, x ≠ []) →
        pieces.flatten = data →
        Agree (HttpRequestParser.new.execute data).1 (HttpRequestParser.new.feed pieces) := by
  refine ⟨acceptedRequest_smallGet, by decide +kernel, by decide +kernel, by decide +kernel,
    by decide +kernel, ?_⟩
  intro hall
  have hagree := hall smallGet acceptedRequest_smallGet [smallGet.take 20, smallGet.drop 20]
    (by decide +kernel) (by decide +kernel)
  have hheader := congrArg (fun r => HttpRequest.getHeader r (bytes "a")) hagree.2.2
  revert hheader
  decide +kernel

end Gxh.Http
