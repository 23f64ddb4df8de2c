import Gxh.Http.Server
import Gxh.Http.ResponseLines

/-!
# The connection header and the end of the connection

`HttpServer::handleClient` with servlets that keep a state and change the request as well as the
response. The header that `dump` writes is the flag of the response; whether the loop goes on is
the flag of the request, looked at when the servlet has returned. Nothing holds the two together
(`connection_header_iff`).
-/

namespace Gxh.Http

open HttpParser

/-- `HttpServer` with any servlets: what `m_dispatch->handle` makes of its own state, the request
and the response. -/
structure ServletServer (σ : Type) where
  name : List UInt8
  isKeepalive : Bool
  buff_size : Nat
  handle : σ → HttpRequest → HttpResponse → σ × HttpRequest × HttpResponse

/-- What `handleClient` does with the connection. -/
inductive ClientEvent
  /-- the response is written; the request is as the servlet has left it -/
  | sent (req : HttpRequest) (rsp : HttpResponse)
  /-- `recvRequest` returns `nullptr` -/
  | failed
  | closed
  deriving DecidableEq, Repr

namespace ServletServer

variable {σ : Type}

/-- The response that the servlet is given. -/
def newResponse (server : ServletServer σ) (req : HttpRequest) : HttpResponse :=
  let rsp : HttpResponse := { version := req.version, close := req.close || !server.isKeepalive }
  rsp.setHeader (bytes "Server") server.name

/-- `m_dispatch->handle(req, rsp, session)`. -/
def dispatch (server : ServletServer σ) (st : σ) (req : HttpRequest) :
    σ × HttpRequest × HttpResponse := server.handle st req (server.newResponse req)

/-- `HttpServer::handleClient`. -/
def handleClient (server : ServletServer σ) (st : σ) (sock : Socket) : List ClientEvent :=
  match _h : recvRequest server.buff_size sock with
  | (none, _) => [.failed, .closed]
  | (some received, sock') =>
      let (st, req, rsp) := server.dispatch st received
      .sent req rsp ::
        if !server.isKeepalive || req.close then [.closed] else server.handleClient st sock'
termination_by sock.reads.length
decreasing_by exact recvLoop_reads _h

variable {server : ServletServer σ} {st : σ} {sock sock' : Socket} {received : HttpRequest}

theorem handleClient_none (h : recvRequest server.buff_size sock = (none, sock')) :
    server.handleClient st sock = [.failed, .closed] := by
  unfold handleClient
  split
  · rfl
  · rename_i heq
    rw [h] at heq
    cases heq

theorem handleClient_some (h : recvRequest server.buff_size sock = (some received, sock')) :
    server.handleClient st sock =
      .sent (server.dispatch st received).2.1 (server.dispatch st received).2.2 ::
        if !server.isKeepalive || (server.dispatch st received).2.1.close then [.closed]
        else server.handleClient (server.dispatch st received).1 sock' := by
  rw [handleClient]
  split
  · rename_i heq
    rw [h] at heq
    cases heq
  · rename_i heq
    rw [h] at heq
    cases heq
    rfl

/-- A connection is not closed before something has been tried on it. -/
theorem handleClient_head (server : ServletServer σ) (st : σ) (sock : Socket) :
    (server.handleClient st sock)[0]? ≠ some .closed := by
  cases hrecv : recvRequest server.buff_size sock with
  | mk answer sock' =>
      cases answer with
      | none =>
          rw [handleClient_none hrecv]
          nofun
      | some received =>
          rw [handleClient_some hrecv]
          nofun

/-- After a response the connection is closed exactly if the server keeps none or the request, as
the servlet has left it, is to be closed. -/
theorem closed_next (server : ServletServer σ) (st : σ) (sock : Socket) {i : Nat}
    {req : HttpRequest} {rsp : HttpResponse}
    (h : (server.handleClient st sock)[i]? = some (.sent req rsp)) :
    (server.handleClient st sock)[i + 1]? = some .closed ↔
      (!server.isKeepalive || req.close) = true := by
  -- on the number of reads that are left, as every request takes one
  induction hn : sock.reads.length using Nat.strong_induction_on generalizing st sock i with
  | _ n ih =>
      cases hrecv : recvRequest server.buff_size sock with
      | mk answer sock' =>
          cases answer with
          | none =>
              rw [handleClient_none hrecv] at h
              match i, h with
              | 0, h => cases h
              | 1, h => cases h
          | some received =>
              have hlt : sock'.reads.length < sock.reads.length := recvLoop_reads hrecv
              rw [handleClient_some hrecv] at h ⊢
              cases i with
              | zero =>
                  cases h
                  rw [List.getElem?_cons_succ]
                  split
                  · rename_i hend
                    exact iff_of_true rfl hend
                  · rename_i hgoes
                    exact iff_of_false (handleClient_head _ _ _) hgoes
              | succ i =>
                  rw [List.getElem?_cons_succ] at h ⊢
                  split at h
                  · cases i <;> cases h
                  · rename_i hgoes
                    rw [if_neg hgoes]
                    exact ih sock'.reads.length (hn ▸ hlt) _ sock' h rfl

/-- Every response comes from the servlet. -/
theorem sent_dispatched (server : ServletServer σ) (st : σ) (sock : Socket) {req : HttpRequest}
    {rsp : HttpResponse} (h : ClientEvent.sent req rsp ∈ server.handleClient st sock) :
    ∃ st' received, (server.dispatch st' received).2 = (req, rsp) := by
  induction hn : sock.reads.length using Nat.strong_induction_on generalizing st sock with
  | _ n ih =>
      cases hrecv : recvRequest server.buff_size sock with
      | mk answer sock' =>
          cases answer with
          | none =>
              rw [handleClient_none hrecv] at h
              simp at h
          | some received =>
              have hlt : sock'.reads.length < sock.reads.length := recvLoop_reads hrecv
              rw [handleClient_some hrecv] at h
              rcases List.mem_cons.mp h with heq | hrest
              · cases heq
                exact ⟨st, received, rfl⟩
              · split at hrest
                · simp at hrest
                · exact ih sock'.reads.length (hn ▸ hlt) _ sock' hrest rfl

end ServletServer

/-! ## What the response says -/

/-- `dump` writes this header line. -/
def HttpResponse.Says (r : HttpResponse) (name value : String) : Prop :=
  (bytes name, bytes value) ∈ r.printedFields

/-- An entry of the header map for the connection is not written, and the flag is. -/
theorem HttpResponse.says_close {r : HttpResponse} (h : r.websocket = false) :
    r.Says "connection" "close" ↔ r.close = true := by
  have hname : strcaseEq (bytes "connection") (bytes "connection") = true := by decide
  have hcookie : ∀ k, (bytes "Set-Cookie", k) ≠ (bytes "connection", bytes "close") := by
    intro k heq
    have hne : bytes "Set-Cookie" ≠ bytes "connection" := by decide
    exact hne (congrArg Prod.fst heq)
  unfold Says
  rw [printedFields_eq h, fields, List.mem_append, List.mem_append, List.mem_singleton]
  constructor
  · rintro ((hentry | hset) | heq)
    · have hkept := (List.mem_filter.mp hentry).2
      rw [hname] at hkept
      cases hkept
    · obtain ⟨k, -, heq⟩ := List.mem_map.mp hset
      exact absurd heq (hcookie k)
    · cases hclose : r.close with
      | true => rfl
      | false =>
          rw [hclose] at heq
          exact absurd (congrArg Prod.snd heq) (by decide)
  · intro hclose
    rw [hclose]
    exact .inr rfl

namespace ServletServer

variable {σ : Type}

/-- After every response of the run but those for websockets, the connection is closed next exactly
if the response says so. -/
def Truthful (server : ServletServer σ) (st : σ) (sock : Socket) : Prop :=
  ∀ i req rsp, (server.handleClient st sock)[i]? = some (.sent req rsp) → rsp.websocket = false →
    ((server.handleClient st sock)[i + 1]? = some .closed ↔ rsp.Says "connection" "close")

/-- The flags of the response and of the request agree, as the servlet has left them. -/
def FlagsAgree (server : ServletServer σ) (st : σ) (sock : Socket) : Prop :=
  ∀ req rsp, ClientEvent.sent req rsp ∈ server.handleClient st sock → rsp.websocket = false →
    rsp.close = (!server.isKeepalive || req.close)

/-- Servlets that leave the flags alone. -/
theorem flagsAgree_of_untouched {server : ServletServer σ}
    (h : ∀ st req rsp, (server.handle st req rsp).2.1.close = req.close ∧
      (server.handle st req rsp).2.2.close = rsp.close) (st : σ) (sock : Socket) :
    server.FlagsAgree st sock := by
  intro req rsp hsent _
  obtain ⟨st', received, hdispatch⟩ := server.sent_dispatched st sock hsent
  obtain ⟨hreq, hrsp⟩ := h st' received (server.newResponse received)
  have hreq' : req.close = received.close := by
    rw [← hreq]
    exact congrArg (fun x => x.1.close) hdispatch.symm
  have hrsp' : rsp.close = (received.close || !server.isKeepalive) :=
    (congrArg (fun x => x.2.close) hdispatch.symm).trans hrsp
  rw [hrsp', hreq', Bool.or_comm]

/-- The connection header tells the truth in a run exactly if the servlets leave the two flags in
agreement, whatever they do to them. -/
theorem connection_header_iff (server : ServletServer σ) (st : σ) (sock : Socket) :
    server.Truthful st sock ↔ server.FlagsAgree st sock := by
  constructor
  · intro htrue req rsp hsent hws
    obtain ⟨i, hi⟩ := List.mem_iff_getElem?.mp hsent
    have hnext := server.closed_next st sock hi
    rw [htrue i req rsp hi hws, HttpResponse.says_close hws] at hnext
    exact Bool.eq_iff_iff.mpr hnext
  · intro hflags i req rsp hi hws
    have hagree := hflags req rsp (List.mem_of_getElem? hi) hws
    rw [server.closed_next st sock hi, HttpResponse.says_close hws, hagree]

end ServletServer

/-- A server whose servlets turn the flag of the response. -/
def flippingServer : ServletServer Unit where
  name := bytes "gxh/1.0.0"
  isKeepalive := true
  buff_size := 4 * 1024
  handle := fun _ req rsp => ((), req, { rsp with close := !rsp.close })

/-- It says the opposite of what is done to the connection. -/
theorem flipped_flag : ¬flippingServer.Truthful () (arrival [[getA]]) := by
  intro h
  have hlen : getA.length ≤ flippingServer.buff_size := by decide
  have hbuffer : ¬toInt flippingServer.buff_size = 0 := by decide
  have hrecv := recvRequest_arrival keepAlive_getA hlen []
  rw [if_neg hbuffer] at hrecv
  have hsent : (flippingServer.handleClient () (arrival [[getA]]))[0]? =
      some (.sent (requestOf getA) (flippingServer.dispatch () (requestOf getA)).2.2) := by
    rw [show arrival [[getA]] = arrival ([getA].map fun r => [r]) from rfl,
      ServletServer.handleClient_some hrecv]
    rfl
  have hsays := h 0 _ _ hsent rfl
  rw [flippingServer.closed_next () _ hsent, HttpResponse.says_close rfl] at hsays
  -- the flag of the response is the negation of that of the request
  have hflag : (requestOf getA).close = true ↔ (!(requestOf getA).close) = true := by
    have hclose : (flippingServer.dispatch () (requestOf getA)).2.2.close =
        !((requestOf getA).close || false) := rfl
    rw [hclose, Bool.or_false] at hsays
    exact hsays
  cases hreq : (requestOf getA).close with
  | true =>
      rw [hreq] at hflag
      exact absurd (hflag.mp rfl) Bool.false_ne_true
  | false =>
      rw [hreq] at hflag
      exact absurd (hflag.mpr rfl) Bool.false_ne_true

end Gxh.Http
