import Gxh.Http.Parser

/-!
# Messages in pieces

The callbacks of `HttpRequestParser` and `HttpResponseParser` put the fragments of bodies and
status texts together, so that a message may be cut wherever `http_parser` is outside urls,
header fields and header values: the calls on the pieces leave what one call on all the bytes
leaves.
-/

namespace Gxh.Http

open HttpParser

theorem request_keepsBody : requestSettings.KeepsBody := fun _ _ => rfl

theorem response_keepsBody : responseSettings.KeepsBody := fun _ _ => rfl

theorem request_body : requestSettings.Seamless .body where
  ok := fun _ _ _ => rfl
  agree := fun _ _ _ _ _ => rfl
  append := by
    intro p a b u
    simp [requestSettings, onRequestBodyCb, HttpRequest.appendBody]

theorem request_status : requestSettings.Seamless .status where
  ok := fun _ _ _ => rfl
  agree := fun _ _ _ _ _ => rfl
  append := fun _ _ _ _ => rfl

theorem response_body : responseSettings.Seamless .body where
  ok := fun _ _ _ => rfl
  agree := fun _ _ _ _ _ => rfl
  append := by
    intro p a b u
    simp [responseSettings, onResponseBodyCb, HttpResponse.appendBody]

theorem response_status : responseSettings.Seamless .status where
  ok := fun _ _ _ => rfl
  agree := by
    intro p q l u h
    simp [responseSettings, onResponseStatusCb, h]
  append := fun _ _ _ _ => rfl

/-- The bytes of a request that one call takes without an error, which includes an upgrade. -/
def AcceptedRequest (data : List UInt8) : Prop :=
  (HttpRequestParser.new.execute data).1.hasError = false ∧ NoUpgrade .HTTP_REQUEST data

/-- The bytes of a response that one call takes without an error or an upgrade. -/
def AcceptedResponse (data : List UInt8) : Prop :=
  (HttpResponseParser.new.execute data).1.hasError = false ∧ NoUpgrade .HTTP_RESPONSE data

theorem hasError_eq_false {μ : Type} {m : MessageParser μ} :
    m.hasError = false ↔ m.error = .HPE_OK := by
  simp [MessageParser.hasError]

/-- A request parser takes an upgrade for an error. -/
theorem upgrade_of_ok {m : HttpRequestParser} {bs : List UInt8}
    (h : (m.execute bs).1.error = .HPE_OK) : (m.execute bs).1.parser.upgrade = false := by
  by_contra hup
  have hup' : (HttpParser.execute requestSettings m.parser m.sink bs).parser.upgrade = true :=
    Bool.not_eq_false _ ▸ hup
  simp only [HttpRequestParser.execute, MessageParser.executeWith, hup', Bool.and_self,
    if_true] at h
  cases h

theorem executeWith_errno {μ : Type} {settings : Settings (Sink μ)} {rejectsUpgrade : Bool}
    {m : MessageParser μ} {bs : List UInt8}
    (h : (HttpParser.execute settings m.parser m.sink bs).parser.http_errno ≠ .HPE_OK) :
    (m.executeWith settings rejectsUpgrade bs).1.hasError = true := by
  rw [← Bool.not_eq_false, hasError_eq_false]
  exact fun hok => h (errno_of_ok hok)

/-- Requests in pieces that end in clear states. -/
theorem request_pieces {pieces : List (List UInt8)} (hne : ∀ x ∈ pieces, x ≠ [])
    (h : AcceptedRequest pieces.flatten) (hclear : CutsClear .HTTP_REQUEST pieces) :
    HttpRequestParser.new.feed pieces = (HttpRequestParser.new.execute pieces.flatten).1 := by
  have hok := hasError_eq_false.mp h.1
  refine feedWith_eq request_keepsBody request_body request_status hne hok ?_ h.2 hclear
  exact upgrade_of_ok hok

theorem AcceptedResponse.upgrade {data : List UInt8} (h : AcceptedResponse data) :
    (HttpResponseParser.new.execute data).1.parser.upgrade = false := by
  by_cases hx : data = []
  · rw [hx]
    rfl
  · have himage := execute_image (hom_bare responseSettings) response_keepsBody
      (init_errno .HTTP_RESPONSE) hx (errno_of_ok (hasError_eq_false.mp h.1))
    have hup := h.2.whole
    rw [scanned, show HttpParser.execute bare _ () _ = _ from himage] at hup
    exact hup

/-- Responses in pieces that end in clear states. -/
theorem response_pieces {pieces : List (List UInt8)} (hne : ∀ x ∈ pieces, x ≠ [])
    (h : AcceptedResponse pieces.flatten) (hclear : CutsClear .HTTP_RESPONSE pieces) :
    HttpResponseParser.new.feed pieces = (HttpResponseParser.new.execute pieces.flatten).1 := by
  have hok := hasError_eq_false.mp h.1
  exact feedWith_eq response_keepsBody response_body response_status hne hok h.upgrade h.2 hclear

end Gxh.Http
