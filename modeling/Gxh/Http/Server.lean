import Mathlib.Algebra.BigOperators.Group.List.Basic
import Gxh.Lib.Word
import Gxh.Http.Segmentation

/-!
# Sessions and the server

`HttpSession::recvRequest` and `HttpServer::handleClient` over the bytes of one connection.

`recvRequest` builds a parser and a buffer, and takes the parser's data when `isFinished` holds
after a read. What the read holds beyond the first message goes through the same parser, over
the same request. So a read gives one request at most, however many it carries, and a server
that keeps its connections answers all the requests of a connection if and only if each of them
has a read of its own and every one but the last asks to keep the connection open.
-/

namespace Gxh.Http

open HttpParser

/-- A connected socket: the bytes of the peer that are still to come, and what each `recv` finds
of them. -/
structure Socket where
  incoming : List UInt8
  reads : List Nat
  deriving DecidableEq, Repr

/-- The loop of `HttpSession::recvRequest`: `data` holds the `offset` bytes that the last call of
the parser has left over. Every way out with `none` closes the session. -/
def recvLoop (buff_size : Nat) (parser : HttpRequestParser) (data incoming : List UInt8) :
    List Nat → Option HttpRequest × Socket
  | [] => (none, ⟨incoming, []⟩)
  | n :: reads =>
      let len := min n (min (buff_size - data.length) incoming.length)
      if len = 0 then (none, ⟨incoming, reads⟩)
      else
        let data := data ++ incoming.take len
        let incoming := incoming.drop len
        let (parser, nparse) := parser.execute data
        if parser.hasError then (none, ⟨incoming, reads⟩)
        else
          -- the `memmove` in `execute`
          let data := data.drop nparse
          if data.length = toInt buff_size then (none, ⟨incoming, reads⟩)
          else if parser.isFinished then (some parser.getData.init, ⟨incoming, reads⟩)
          else recvLoop buff_size parser data incoming reads

def recvRequest (buff_size : Nat) (sock : Socket) : Option HttpRequest × Socket :=
  recvLoop buff_size .new [] sock.incoming sock.reads

/-- `HttpServer`, with the buffer size of its requests and what `m_dispatch` makes of a
request. -/
structure HttpServer where
  name : List UInt8
  isKeepalive : Bool
  buff_size : Nat
  handle : HttpRequest → HttpResponse → HttpResponse

/-- The response `handleClient` sends to a request. -/
def HttpServer.answer (server : HttpServer) (req : HttpRequest) : HttpResponse :=
  let rsp : HttpResponse := { version := req.version, close := req.close || !server.isKeepalive }
  server.handle req (rsp.setHeader (bytes "Server") server.name)

theorem recvLoop_reads {buff_size : Nat} {parser : HttpRequestParser} {data incoming : List UInt8}
    {reads : List Nat} {req : HttpRequest} {sock : Socket}
    (h : recvLoop buff_size parser data incoming reads = (some req, sock)) :
    sock.reads.length < reads.length := by
  induction reads generalizing parser data incoming with
  | nil => cases h
  | cons n reads ih =>
      simp only [recvLoop] at h
      split at h
      · cases h
      · split at h
        · cases h
        · split at h
          · cases h
          · split at h
            · cases h
              exact Nat.lt_succ_self _
            · exact Nat.lt_succ_of_lt (ih h)

/-- The requests that `handleClient` dispatches, each with the response it sends. -/
def HttpServer.handleClient (server : HttpServer) (sock : Socket) :
    List (HttpRequest × HttpResponse) :=
  match _h : recvRequest server.buff_size sock with
  | (none, _) => []
  | (some req, sock') =>
      (req, server.answer req) ::
        if !server.isKeepalive || req.close then [] else server.handleClient sock'
termination_by sock.reads.length
decreasing_by exact recvLoop_reads _h

variable {server : HttpServer} {sock sock' : Socket} {req : HttpRequest} {r : List UInt8}

theorem handleClient_none (h : recvRequest server.buff_size sock = (none, sock')) :
    server.handleClient sock = [] := by
  unfold HttpServer.handleClient
  split
  · rfl
  · rename_i heq
    rw [h] at heq
    cases heq

theorem handleClient_some (h : recvRequest server.buff_size sock = (some req, sock')) :
    server.handleClient sock = (req, server.answer req) ::
      if !server.isKeepalive || req.close then [] else server.handleClient sock' := by
  rw [HttpServer.handleClient]
  split
  · rename_i heq
    rw [h] at heq
    cases heq
  · rename_i heq
    rw [h] at heq
    cases heq
    rfl

/-- One read, one request at most. -/
theorem handleClient_length_le (server : HttpServer) (sock : Socket) :
    (server.handleClient sock).length ≤ sock.reads.length := by
  induction hn : sock.reads.length using Nat.strong_induction_on generalizing sock with
  | _ n ih =>
      cases hrecv : recvRequest server.buff_size sock with
      | mk answer sock' =>
          cases answer with
          | none =>
              rw [handleClient_none hrecv]
              exact Nat.zero_le n
          | some req =>
              have hlt : sock'.reads.length < sock.reads.length := recvLoop_reads hrecv
              have hrest := ih sock'.reads.length (hn ▸ hlt) sock' rfl
              rw [handleClient_some hrecv]
              split
              · simp only [List.length_singleton]
                omega
              · simp only [List.length_cons]
                omega

/-! ## Requests on a kept connection -/

/-- What a session makes of a request that comes alone. -/
def requestOf (r : List UInt8) : HttpRequest := (HttpRequestParser.new.execute r).1.getData.init

/-- The bytes of one HTTP/1.1 request after which `http_parser` goes on with the next one:
`http_should_keep_alive` holds at its end. -/
structure KeepAliveRequest (r : List UInt8) : Prop where
  accepted : (HttpRequestParser.new.execute r).1.hasError = false
  finished : (HttpRequestParser.new.execute r).1.isFinished = true
  unfinished : ∀ n < r.length, (HttpRequestParser.new.execute (r.take n)).1.isFinished = false
  version : (requestOf r).version = 0x11
  keepAlive : (HttpRequestParser.new.execute r).1.parser.state = .s_start_req

/-- `Connection: keep-alive`, in any case. -/
def HttpRequest.AsksKeepAlive (req : HttpRequest) : Prop :=
  strcaseEq (req.getHeader (bytes "connection")) (bytes "keep-alive") = true

namespace KeepAliveRequest

theorem ne_nil (h : KeepAliveRequest r) : r ≠ [] := by
  rintro rfl
  cases h.finished

theorem ok (h : KeepAliveRequest r) : (HttpRequestParser.new.execute r).1.error = .HPE_OK :=
  hasError_eq_false.mp h.accepted

theorem nparsed (h : KeepAliveRequest r) : (HttpRequestParser.new.execute r).2 = r.length :=
  execute_nparsed request_keepsBody rfl h.ne_nil (errno_of_ok h.ok) (upgrade_of_ok h.ok)

/-- No callback touches `m_close`. -/
theorem close_parsed (h : KeepAliveRequest r) :
    (HttpRequestParser.new.execute r).1.getData.close = true := by
  refine execute_untouched (f := fun s : Sink HttpRequest => s.data.close) request_keepsBody
    ?_ ?_ rfl h.ne_nil (errno_of_ok h.ok)
  · intro n p u
    cases n <;> rfl
  · intro d p l u
    cases d <;> try rfl
    show (onRequestUrlCb l u).1.data.close = u.data.close
    unfold onRequestUrlCb
    split <;> rfl

/-- A request without a `Connection` header is closed like one that says `close`. -/
theorem close_iff (h : KeepAliveRequest r) :
    (requestOf r).close = false ↔ (requestOf r).AsksKeepAlive := by
  have hclose := h.close_parsed
  unfold requestOf HttpRequest.AsksKeepAlive
  generalize (HttpRequestParser.new.execute r).1.getData = req at hclose
  unfold HttpRequest.init
  by_cases hconn : req.getHeader (bytes "connection") = []
  · simp only [hconn, if_true, hclose]
    decide
  · simp only [hconn, if_false]
    rw [Bool.not_eq_false']
    rfl

end KeepAliveRequest

/-- A connection on which the requests of each group come in one read. -/
def arrival (groups : List (List (List UInt8))) : Socket where
  incoming := (groups.map List.flatten).flatten
  reads := groups.map fun g => g.flatten.length

theorem handleClient_nil (server : HttpServer) : server.handleClient (arrival []) = [] := by
  have hrecv : recvRequest server.buff_size (arrival []) = (none, arrival []) := rfl
  exact handleClient_none hrecv

/-- The request and the response of one turn of `handleClient`. -/
def HttpServer.serve (server : HttpServer) (r : List UInt8) : HttpRequest × HttpResponse :=
  (requestOf r, server.answer (requestOf r))

section Alone

variable {incoming : List UInt8} {reads : List Nat} {buff_size : Nat}

/-- A request that comes alone is received, unless the buffer size reads 0 as an `int`. -/
theorem recvRequest_alone (h : KeepAliveRequest r) (hfit : r.length ≤ buff_size) :
    recvRequest buff_size ⟨r ++ incoming, r.length :: reads⟩ =
      (if toInt buff_size = 0 then none else some (requestOf r), ⟨incoming, reads⟩) := by
  have hlen : min r.length (min (buff_size - 0) (r ++ incoming).length) = r.length := by
    rw [List.length_append]
    omega
  have hpos : r.length ≠ 0 := fun hz => h.ne_nil (List.eq_nil_of_length_eq_zero hz)
  unfold recvRequest
  simp only [recvLoop, List.length_nil, hlen, hpos, if_false, List.nil_append, List.take_left,
    List.drop_left, h.accepted, Bool.false_eq_true, h.nparsed, List.drop_length,
    h.finished, if_true]
  by_cases hz : toInt buff_size = 0
  · rw [if_pos hz, if_pos (by rw [hz]; rfl)]
  · rw [if_neg hz, if_neg fun heq => hz heq.symm]
    rfl

theorem recvRequest_arrival (h : KeepAliveRequest r) (hfit : r.length ≤ buff_size)
    (rest : List (List UInt8)) :
    recvRequest buff_size (arrival ((r :: rest).map fun r => [r])) =
      (if toInt buff_size = 0 then none else some (requestOf r),
        arrival (rest.map fun r => [r])) := by
  have hsock : arrival ((r :: rest).map fun r => [r]) =
      ⟨r ++ (arrival (rest.map fun r => [r])).incoming,
        r.length :: (arrival (rest.map fun r => [r])).reads⟩ := by
    simp [arrival]
  rw [hsock]
  exact recvRequest_alone h hfit

end Alone

/-- Requests that come in a read each: all are answered if and only if all but the last ask for
it. -/
theorem handleClient_alone (hkeep : server.isKeepalive = true)
    (hz : toInt server.buff_size ≠ 0) {requests : List (List UInt8)}
    (hreq : ∀ r ∈ requests, KeepAliveRequest r)
    (hfit : ∀ r ∈ requests, r.length ≤ server.buff_size) :
    server.handleClient (arrival (requests.map fun r => [r])) = requests.map server.serve ↔
      ∀ r ∈ requests.dropLast, (requestOf r).AsksKeepAlive := by
  induction requests with
  | nil => simp [handleClient_nil]
  | cons r rest ih =>
      have hr := hreq r (by simp)
      have hrecv := recvRequest_arrival hr (hfit r (by simp)) rest
      rw [if_neg hz] at hrecv
      have hrest := ih (fun x hx => hreq x (by simp [hx])) fun x hx => hfit x (by simp [hx])
      rw [handleClient_some hrecv, List.map_cons, hkeep]
      show (server.serve r :: if (requestOf r).close then [] else _) = _ ↔ _
      rw [List.cons.injEq, and_iff_right rfl]
      cases rest with
      | nil =>
          rw [List.map_nil, handleClient_nil]
          simp
      | cons r' rest' =>
          rw [List.dropLast_cons_cons, List.forall_mem_cons, ← hr.close_iff]
          by_cases hclose : (requestOf r).close = true
          · simp [hclose]
          · rw [if_neg hclose, hrest]
            simp [hclose]

/-- As many requests as reads: each read carries one. -/
theorem length_eq_one_of_flatten {α : Type} {groups : List (List α)} (hne : ∀ g ∈ groups, g ≠ [])
    (hlen : groups.flatten.length ≤ groups.length) : ∀ g ∈ groups, g.length = 1 := by
  induction groups with
  | nil => nofun
  | cons g rest ih =>
      have hg : 0 < g.length := List.length_pos_iff.mpr (hne g (by simp))
      have hrest : rest.length ≤ rest.flatten.length := by
        have hsum := List.length_le_sum_of_one_le (rest.map List.length) fun n hn => by
          obtain ⟨x, hx, rfl⟩ := List.mem_map.mp hn
          exact List.length_pos_iff.mpr (hne x (by simp [hx]))
        rwa [List.length_map, ← List.length_flatten] at hsum
      rw [List.flatten_cons, List.length_append, List.length_cons] at hlen
      rw [List.forall_mem_cons]
      exact ⟨by omega, ih (fun x hx => hne x (by simp [hx])) (by omega)⟩

theorem exists_of_length_eq_one {α : Type} {groups : List (List α)}
    (h : ∀ g ∈ groups, g.length = 1) : ∃ as : List α, groups = as.map fun a => [a] := by
  induction groups with
  | nil => exact ⟨[], rfl⟩
  | cons g rest ih =>
      obtain ⟨a, rfl⟩ := List.length_eq_one_iff.mp (h g (by simp))
      obtain ⟨as, rfl⟩ := ih fun x hx => h x (by simp [hx])
      exact ⟨a :: as, rfl⟩

theorem flatten_singletons {α : Type} (as : List α) : (as.map fun a => [a]).flatten = as := by
  rw [← List.flatMap_def, List.flatMap_singleton']

/-- A server that keeps its connections answers all the requests of a connection, one by one and
in their order, if and only if each of them has a read of its own and every one but the last
carries `Connection: keep-alive`. (A buffer size that is a multiple of `2 ^ 32` reads 0 as an
`int`, and ends every session.) -/
theorem handleClient_answers_all (server : HttpServer) (hkeep : server.isKeepalive = true)
    (groups : List (List (List UInt8))) (hne : ∀ g ∈ groups, g ≠ [])
    (hreq : ∀ r ∈ groups.flatten, KeepAliveRequest r)
    (hfit : ∀ g ∈ groups, g.flatten.length ≤ server.buff_size) :
    server.handleClient (arrival groups) = groups.flatten.map server.serve ↔
      (∀ g ∈ groups, g.length = 1) ∧
      (∀ r ∈ groups.flatten.dropLast, (requestOf r).AsksKeepAlive) ∧
      (groups ≠ [] → toInt server.buff_size ≠ 0) := by
  by_cases hone : ∀ g ∈ groups, g.length = 1
  · obtain ⟨requests, rfl⟩ := exists_of_length_eq_one hone
    rw [flatten_singletons] at hreq ⊢
    have hfit' : ∀ r ∈ requests, r.length ≤ server.buff_size := by
      intro r hr
      simpa using hfit [r] (List.mem_map_of_mem hr)
    rw [and_iff_right hone]
    by_cases hz : toInt server.buff_size = 0
    · cases requests with
      | nil => simp [handleClient_nil]
      | cons r rest =>
          have hrecv := recvRequest_arrival (hreq r (by simp)) (hfit' r (by simp)) rest
          rw [if_pos hz] at hrecv
          rw [handleClient_none hrecv]
          simp [hz]
    · rw [handleClient_alone hkeep hz hreq hfit']
      exact ⟨fun h => ⟨h, fun _ => hz⟩, And.left⟩
  · refine iff_of_false (fun h => hone ?_) fun h => hone h.1
    -- more requests than reads
    apply length_eq_one_of_flatten hne
    have hle := handleClient_length_le server (arrival groups)
    rw [h, List.length_map] at hle
    simpa [arrival] using hle

/-- A server with the defaults of the configuration, whose servlets leave the response as it
is. -/
def plainServer : HttpServer where
  name := bytes "gxh/1.0.0"
  isKeepalive := true
  buff_size := 4 * 1024
  handle := fun _ rsp => rsp

def getA : List UInt8 := bytes "GET /a?x=1 HTTP/1.1\r\nConnection: keep-alive\r\n\r\n"

def postB : List UInt8 :=
  bytes "POST /b HTTP/1.1\r\nConnection: Keep-Alive\r\nContent-Length: 2\r\n\r\nhi"

theorem keepAlive_getA : KeepAliveRequest getA where
  accepted := by decide +kernel
  finished := by decide +kernel
  unfinished := by decide +kernel
  version := by decide +kernel
  keepAlive := by decide +kernel

theorem keepAlive_postB : KeepAliveRequest postB where
  accepted := by decide +kernel
  finished := by decide +kernel
  unfinished := by decide +kernel
  version := by decide +kernel
  keepAlive := by decide +kernel

theorem handleClient_answers_two_reads :
    plainServer.handleClient (arrival [[getA], [postB]]) =
      [plainServer.serve getA, plainServer.serve postB] := by
  refine (handleClient_answers_all plainServer rfl [[getA], [postB]] ?_ ?_ ?_).mpr ⟨?_, ?_, ?_⟩
  · decide
  · intro r hr
    simp only [List.flatten_cons, List.flatten_nil, List.append_nil, List.singleton_append,
      List.mem_cons, List.not_mem_nil, or_false] at hr
    rcases hr with rfl | rfl
    · exact keepAlive_getA
    · exact keepAlive_postB
  · decide +kernel
  · decide
  · intro r hr
    obtain rfl : r = getA := by simpa using hr
    show strcaseEq _ _ = true
    decide +kernel
  · decide

/-- Two requests in one read: one is dispatched, with the path and the body of the second and
the query of the first. -/
theorem pipelined_requests_merge :
    KeepAliveRequest getA ∧ KeepAliveRequest postB ∧
      (requestOf getA).AsksKeepAlive ∧ (requestOf postB).AsksKeepAlive ∧
      [getA, postB].flatten.length ≤ plainServer.buff_size ∧
      plainServer.handleClient (arrival [[getA, postB]]) ≠
        [plainServer.serve getA, plainServer.serve postB] ∧
      (plainServer.handleClient (arrival [[getA, postB]])).map
        (fun served => (served.1.path, served.1.query, served.1.body)) =
          [(bytes "/b", bytes "x=1", bytes "hi")] := by
  refine ⟨keepAlive_getA, keepAlive_postB, ?_, ?_, ?_, ?_, ?_⟩
  · show strcaseEq _ _ = true
    decide +kernel
  · show strcaseEq _ _ = true
    decide +kernel
  · decide +kernel
  · intro h
    have hle := handleClient_length_le plainServer (arrival [[getA, postB]])
    rw [h] at hle
    revert hle
    decide
  · have hrecv : recvRequest plainServer.buff_size (arrival [[getA, postB]]) =
        (some (requestOf (getA ++ postB)), arrival []) := by
      decide +kernel
    rw [handleClient_some hrecv, handleClient_nil]
    decide +kernel

end Gxh.Http
