import Gxh.Http.Received

/-!
# A client and a server

A client of `HttpConnection` and a server that keeps its connections, with `HttpRequest::dump`,
`recvRequest`, the dispatch, `HttpResponse::dump` and `recvResponse` between them. The client
waits for a response before it sends the next request, so that each message has a read of its own.
-/

namespace Gxh.Http

open HttpParser

/-- The requests of a client on one connection, each in a read of its own. -/
def sentAlone (requests : List HttpRequest) : Socket := arrival (requests.map fun r => [r.dump])

/-- What the client makes of the responses of `handleClient`. -/
def HttpServer.exchange (server : HttpServer) (buff_size : Nat) (requests : List HttpRequest) :
    List (Option HttpResponse) :=
  (server.handleClient (sentAlone requests)).map fun x =>
    recvResponse buff_size ⟨x.2.dump, [x.2.dump.length]⟩

/-- The servlets answer every form in which `r` may arrive with a response that the client can
read. -/
structure HttpServer.Serves (server : HttpServer) (buff_size : Nat) (r : HttpRequest) : Prop where
  plain : ∀ r', r.Received r' → (server.answer r').Plain
  oneLine : ∀ r', r.Received r' → (server.answer r').OneLine
  readable : ∀ r', r.Received r' → (server.answer r').Readable buff_size
  fits : ∀ r', r.Received r' → (server.answer r').dump.length ≤ buff_size
  small : ∀ r', r.Received r' → (server.answer r').dump.length < 2 ^ 31

variable {server : HttpServer}

theorem sentAlone_cons (r : HttpRequest) (rest : List HttpRequest) :
    sentAlone (r :: rest) =
      ⟨r.dump ++ (sentAlone rest).incoming, r.dump.length :: (sentAlone rest).reads⟩ := by
  simp [sentAlone, arrival]

/-- The requests of a connection are dispatched one after the other, as `f` says that each
arrives. -/
theorem handleClient_sentAlone {f : HttpRequest → HttpRequest} (hkeep : server.isKeepalive = true)
    {requests : List HttpRequest}
    (hrecv : ∀ r ∈ requests, ∀ incoming reads,
      recvRequest server.buff_size ⟨r.dump ++ incoming, r.dump.length :: reads⟩ =
        (some (f r), ⟨incoming, reads⟩))
    (hopen : ∀ r ∈ requests.dropLast, (f r).close = false) :
    server.handleClient (sentAlone requests) =
      requests.map fun r => (f r, server.answer (f r)) := by
  induction requests with
  | nil => exact handleClient_nil server
  | cons r rest ih =>
      obtain ⟨hr, hothers⟩ := List.forall_mem_cons.mp hrecv
      have hleft : (⟨(sentAlone rest).incoming, (sentAlone rest).reads⟩ : Socket) =
          sentAlone rest := rfl
      have hfirst := hr (sentAlone rest).incoming (sentAlone rest).reads
      rw [← sentAlone_cons, hleft] at hfirst
      have hturn := handleClient_some hfirst
      rw [hkeep, Bool.not_true, Bool.false_or] at hturn
      rw [hturn, List.map_cons]
      cases rest with
      | nil =>
          have hnone : server.handleClient (sentAlone []) = [] := handleClient_nil server
          rw [hnone, ite_self, List.map_nil]
      | cons r₂ rest₂ =>
          rw [List.dropLast_cons_cons, List.forall_mem_cons] at hopen
          rw [hopen.1, if_neg Bool.false_ne_true]
          rw [ih hothers hopen.2]

/-- The response of a servlet comes back to the client. -/
theorem HttpServer.Serves.answered {buff_size : Nat} {r r' : HttpRequest}
    (h : server.Serves buff_size r) (hr : r.Received r') :
    ∃ rsp', recvResponse buff_size ⟨(server.answer r').dump, [(server.answer r').dump.length]⟩ =
      some rsp' ∧ (server.answer r').Same rsp' :=
  (response_delivered (h.plain r' hr) (h.oneLine r' hr) (h.fits r' hr) (h.small r' hr)).mpr
    (h.readable r' hr)

/-- The requests that a client sends over a kept connection are dispatched as they were sent, one
after the other, and the client gets the response of the servlets to each of them, in order. -/
theorem exchange_answers {buff_size : Nat} (hkeep : server.isKeepalive = true)
    (hz : toInt server.buff_size ≠ 0) {requests : List HttpRequest}
    (hsend : ∀ r ∈ requests, r.Sendable) (hfit : ∀ r ∈ requests, r.dump.length ≤ server.buff_size)
    (hopen : ∀ r ∈ requests.dropLast, r.close = false)
    (hserves : ∀ r ∈ requests, server.Serves buff_size r) :
    List.Forall₂ (fun r x => r.Received x.1 ∧ x.2 = server.answer x.1) requests
      (server.handleClient (sentAlone requests)) ∧
    List.Forall₂ (fun x rsp => ∃ rsp', rsp = some rsp' ∧ x.2.Same rsp')
      (server.handleClient (sentAlone requests)) (server.exchange buff_size requests) := by
  obtain ⟨f, hrecv, hreceived⟩ : ∃ f : HttpRequest → HttpRequest,
      (∀ r ∈ requests, ∀ incoming reads,
        recvRequest server.buff_size ⟨r.dump ++ incoming, r.dump.length :: reads⟩ =
          (some (f r), ⟨incoming, reads⟩)) ∧
      ∀ r ∈ requests, r.Received (f r) :=
    ⟨fun r => r.arrived.init, fun r hr => (hsend r hr).recvRequest_dump hz (hfit r hr),
      fun r hr => (hsend r hr).received⟩
  have hclose : ∀ r ∈ requests.dropLast, (f r).close = false := by
    intro r hr
    rw [(hreceived r (List.dropLast_subset _ hr)).close]
    exact hopen r hr
  rw [HttpServer.exchange, handleClient_sentAlone hkeep hrecv hclose]
  constructor
  · rw [List.forall₂_map_right_iff, List.forall₂_same]
    exact fun r hr => ⟨hreceived r hr, rfl⟩
  · rw [List.forall₂_map_right_iff, List.forall₂_same]
    intro x hx
    obtain ⟨r, hr, rfl⟩ := List.mem_map.mp hx
    exact (hserves r hr).answered (hreceived r hr)

/-- A server with one servlet, which writes a word. -/
def wordServer : HttpServer where
  name := bytes "gxh/1.0.0"
  isKeepalive := true
  buff_size := 4 * 1024
  handle := fun _ rsp => { rsp with body := bytes "ok" }

/-- The answer to a request of version 1.1. -/
def wordPage (close : Bool) : HttpResponse where
  close := close
  body := bytes "ok"
  headers := [(bytes "Server", bytes "gxh/1.0.0")]

theorem wordServer_answer {r r' : HttpRequest} (hr : r.Received r') (hversion : r.version = 0x11) :
    wordServer.answer r' = wordPage r.close := by
  unfold HttpServer.answer wordPage
  rw [hr.version, hversion, hr.close]
  show ({ close := r.close || false, body := _, headers := _ } : HttpResponse) = _
  rw [Bool.or_false]
  rfl

theorem plain_wordPage (close : Bool) : (wordPage close).Plain where
  websocket := rfl
  status := by show ¬ (200 / 100 = 1 ∨ 200 = 204 ∨ 200 = 304); decide
  sorted := by
    show HeaderMap.Sorted [(bytes "Server", bytes "gxh/1.0.0")]
    unfold HeaderMap.Sorted OrdMap.Sorted
    decide
  names := List.forall_mem_singleton.mpr (by decide)
  values := List.forall_mem_singleton.mpr (by decide)
  length := List.forall_mem_singleton.mpr (by decide)
  coding := List.forall_mem_singleton.mpr (by decide)

theorem length_wordPage (close : Bool) : (wordPage close).dump.length ≤ 200 := by
  cases close <;> decide +kernel

theorem serves_wordServer {r : HttpRequest} (hversion : r.version = 0x11) :
    wordServer.Serves 4096 r where
  plain := fun r' hr => by
    rw [wordServer_answer hr hversion]
    exact plain_wordPage r.close
  oneLine := fun r' hr => by
    rw [wordServer_answer hr hversion]
    exact ⟨fun c hc => (List.not_mem_nil hc).elim, fun k hk => (List.not_mem_nil hk).elim⟩
  readable := fun r' hr => by
    rw [wordServer_answer hr hversion]
    have hlen := length_wordPage r.close
    refine ⟨⟨by show 0x11 >>> 4 < 10 ∧ 0x11 &&& 0x0F < 10; decide, by show 200 < 1000; decide,
      List.forall_mem_singleton.mpr fun _ => by decide, fun k hk => (List.not_mem_nil hk).elim, ?_⟩,
      by show bytes "ok" ≠ []; decide, by decide, ?_, ?_⟩
    · exact hlen.trans ((show 200 ≤ maxHeaderSize by decide).trans (Nat.le_add_right _ _))
    · intro v hv
      have hnone : (wordPage r.close).headers.find (bytes "connection") = none := by
        show HeaderMap.find _ [(bytes "Server", bytes "gxh/1.0.0")] = none
        decide
      rw [hnone] at hv
      cases hv
    · intro v k _ hk
      cases hk
  fits := fun r' hr => by
    rw [wordServer_answer hr hversion]
    exact (length_wordPage r.close).trans (by decide)
  small := fun r' hr => by
    rw [wordServer_answer hr hversion]
    exact (length_wordPage r.close).trans_lt (by decide)

/-- A second request, the last one of its connection. -/
def sendPage : HttpRequest where
  path := bytes "/a"

theorem sendable_sendPage : sendPage.Sendable where
  websocket := rfl
  absolute := rfl
  path := List.all_iff_forall_prop.mp (by decide)
  query := List.all_iff_forall_prop.mp (by decide)
  fragment := List.all_iff_forall_prop.mp (by decide)
  sorted := by unfold HeaderMap.Sorted OrdMap.Sorted; decide
  names := by decide
  values := by decide
  coding := by decide
  known := by decide
  method := by decide
  version := by decide
  hash := by decide
  target := by decide
  good := by decide
  upgrade := by decide
  length := fun _ => by decide
  head := by
    have hlen : sendPage.dump.length ≤ 200 := by decide +kernel
    exact hlen.trans ((show 200 ≤ maxHeaderSize by decide).trans (Nat.le_add_right _ _))
  small := by
    have hlen : sendPage.dump.length ≤ 200 := by decide +kernel
    omega

theorem exchange_answers_two :
    List.Forall₂ (fun r x => r.Received x.1 ∧ x.2 = wordServer.answer x.1) [sendForm, sendPage]
      (wordServer.handleClient (sentAlone [sendForm, sendPage])) ∧
    List.Forall₂ (fun x rsp => ∃ rsp', rsp = some rsp' ∧ x.2.Same rsp')
      (wordServer.handleClient (sentAlone [sendForm, sendPage]))
      (wordServer.exchange 4096 [sendForm, sendPage]) :=
  exchange_answers rfl (by decide)
    (List.forall_mem_cons.mpr ⟨sendable_sendForm, List.forall_mem_singleton.mpr sendable_sendPage⟩)
    (List.forall_mem_cons.mpr ⟨by decide +kernel,
      List.forall_mem_singleton.mpr (by decide +kernel)⟩)
    (List.forall_mem_singleton.mpr rfl)
    (List.forall_mem_cons.mpr ⟨serves_wordServer rfl,
      List.forall_mem_singleton.mpr (serves_wordServer rfl)⟩)

end Gxh.Http
