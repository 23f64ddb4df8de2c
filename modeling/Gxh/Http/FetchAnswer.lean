import Gxh.Http.Exchange
import Gxh.Http.Fetch
import Gxh.Uri.RoundTrip

/-!
# A URL is fetched

What `Uri::Create` accepts makes a request line (`aimed_uri`). Where a server is at the other end,
its servlets get the request that the URL and the caller ask for, and the caller the answer to it:
`fetch_answered` for `HttpConnection::DoRequest`, and `pool_answered` for the pool, which sends
path, query and fragment as one path.
-/

namespace Gxh.Http

open HttpParser

/-! ## URLs -/

theorem isHostValue_of_chars {host : List UInt8}
    (h : ∀ c ∈ host, isHeaderChar c = true ∧ c ≠ CR ∧ c ≠ LF ∧ isBlank c = false) :
    IsHostValue host := by
  have hends : ∀ o : Option UInt8, (∀ c ∈ o, c ∈ host) → o.all (!isBlank ·) = true := by
    intro o ho
    cases o with
    | none => rfl
    | some c =>
        obtain ⟨-, -, -, hblank⟩ := h c (ho c rfl)
        simp [hblank]
  refine ⟨?_, ?_⟩
  · unfold isFieldText
    rw [Bool.and_eq_true, Bool.and_eq_true, List.all_eq_true]
    refine ⟨⟨fun c hc => ?_, ?_⟩, ?_⟩
    · obtain ⟨-, hcr, hlf, -⟩ := h c hc
      simp [hcr, hlf]
    · exact hends _ fun c hc => List.mem_of_mem_head? hc
    · exact hends _ fun c hc => List.mem_of_mem_getLast? hc
  · unfold goodValue onWire
    rw [List.all_eq_true]
    intro c hc
    exact (h c ((List.dropWhile_sublist _).subset (List.mem_of_mem_tail hc))).1

/-- A byte that any host of a URL may have can stand in a header. -/
theorem isHostValue_authority (a : Authority) : IsHostValue a.host := by
  refine isHostValue_of_chars (a.host_chars ?_ ?_ (by decide) ?_)
  · exact forall_byte (by decide +kernel)
  · exact forall_byte (by decide +kernel)
  · exact forall_byte (by decide +kernel)

section Url

variable (l : AbsoluteUrl)

theorem head_getPath : l.uri.getPath.head? = some ('/' : UInt8) := by
  unfold Uri.getPath
  split
  · rfl
  · rename_i hne
    obtain ⟨c, rest, hpath⟩ := List.exists_cons_of_ne_nil hne
    have hc := l.tail.path_slash c
    have hpath : l.tail.path = c :: rest := hpath
    rw [hpath] at hc
    show l.tail.path.head? = _
    rw [hpath, List.head?_cons, hc rfl]

theorem getPath_chars : ∀ c ∈ l.uri.getPath, isUrlChar c = true := by
  unfold Uri.getPath
  split
  · decide +kernel
  · exact l.tail.path_chars

theorem length_target (method : HttpMethod) :
    (aimedAt method l.uri).target.length ≤ l.text.length := by
  have hpath := l.length_getPath_le
  have hfragment := l.tail.length_fragmentText
  obtain ⟨hsizes, hscheme⟩ := l.text_sizes
  have hquery : ((if l.uri.query = [] then [] else bytes "?") ++ l.uri.query).length ≤
      l.tail.queryText.length := by
    by_cases hnil : l.tail.query = []
    · have hnil' : l.uri.query = [] := hnil
      simp [hnil']
    · have hnil' : l.uri.query ≠ [] := hnil
      rw [l.length_queryText hnil, if_neg hnil', List.length_append, Nat.add_comm]
      exact le_rfl
  have hmark : ((if l.uri.fragment = [] then [] else bytes "#") ++ l.uri.fragment).length ≤
      l.tail.fragmentText.length := by
    by_cases hnil : l.tail.fragment = []
    · have hnil' : l.uri.fragment = [] := hnil
      simp [hnil']
    · have hnil' : l.uri.fragment ≠ [] := hnil
      have hhash : l.tail.hashes ≠ 0 := mt l.tail.fragment_hash hnil
      rw [if_neg hnil', List.length_append, hfragment]
      show 1 + l.tail.fragment.length ≤ _
      omega
  rw [List.length_append] at hquery hmark
  unfold HttpRequest.target aimedAt
  simp only [List.length_append]
  omega

/-- What `Uri::Create` has accepted makes a request line. -/
theorem aimed_uri (hlen : l.text.length < 2 ^ 16) {method : HttpMethod}
    (hknown : method ≠ .INVALID_METHOD) (hmethod : method ≠ .CONNECT) :
    Aimed (aimedAt method l.uri) where
  known := hknown
  method := hmethod
  version := show 0x11 >>> 4 < 10 ∧ 0x11 &&& 0x0F < 10 by decide
  websocket := rfl
  absolute := head_getPath l
  path := getPath_chars l
  query := l.tail.query_chars
  fragment := l.tail.fragment_chars
  hash := l.tail.fragment_head
  target := (length_target l method).trans_lt hlen

end Url

/-- A URL with a scheme that `Uri::Create` accepts has the layout of `AbsoluteUrl`. -/
theorem exists_uri {url : List UInt8} {u : Uri} (hlen : url.length < 2 ^ 16)
    (hcreate : Uri.create url = .ok (some u)) (hscheme : u.scheme ≠ []) :
    ∃ l : AbsoluteUrl, l.text = url ∧ u = l.uri := by
  obtain ⟨w, hparse, -⟩ := Uri.create_some hcreate
  rcases exists_absoluteUrl hlen hparse with ⟨c, rest, rfl, hc⟩ | ⟨l, rfl⟩
  · exact absurd (Uri.scheme_of_origin hc hcreate) hscheme
  · refine ⟨l, rfl, ?_⟩
    rw [l.create_text hlen] at hcreate
    split at hcreate
    · cases hcreate
    · cases hcreate
      rfl

/-! ## The answer -/

/-- What a server sends on a connection on which `sent` arrives in one read: a response in each
read of the client. -/
def HttpServer.reply (server : HttpServer) (sent : List UInt8) : Socket :=
  arrival ((server.handleClient ⟨sent, [sent.length]⟩).map fun x => [x.2.dump])

/-- `sendRequest` reports success, and the server is at the other end. -/
structure Link.Delivers (link : Link) (server : HttpServer) (req : HttpRequest) : Prop where
  honest : Stream.Plain.Honest
    (Stream.Plain.writeFixSize req.dump req.dump.length link.writes).2.1
  sent : ∃ rt, (link.sendRequest req).2 = some rt ∧ 0 < rt
  reply : link.reply = server.reply

/-- The address is found, and the connection stands. -/
structure Network.Reaches (net : Network) (server : HttpServer) (uri : Uri) (req : HttpRequest) :
    Prop where
  address : (net.createAddress uri).isSome = true
  socket : net.CreateTCP = true
  connected : net.connect = true
  delivers : net.link.Delivers server req

section Answer

variable {server : HttpServer} {link : Link} {buff_size : Nat}

/-- All bytes are out when `sendRequest` reports success. -/
theorem sendRequest_all {req : HttpRequest} (hsmall : req.dump.length < 2 ^ 31)
    (h : link.Delivers server req) : (link.sendRequest req).1 = req.dump := by
  obtain ⟨rt, hrt, hpos⟩ := h.sent
  have hlong : req.dump.length < 9223372036854775808 := by omega
  have hspec := Stream.Plain.loop_spec hlong link.writes h.honest
  have hsent := Stream.Plain.sent_eq req.dump hspec.consecutive
  rcases hspec.returned rt hrt with ⟨-, hall, -⟩ | ⟨hle, -, -⟩
  · rw [List.drop_zero, List.take_of_length_le (by omega)] at hsent
    exact hsent
  · exact absurd hpos (by omega)

/-- The first response on a connection that carries one request. -/
theorem reply_dump {r r' : HttpRequest}
    (hrecv : recvRequest server.buff_size ⟨r.dump, [r.dump.length]⟩ = (some r', ⟨[], []⟩)) :
    server.reply r.dump = ⟨(server.answer r').dump, [(server.answer r').dump.length]⟩ := by
  have hempty : (⟨[], []⟩ : Socket) = arrival [] := rfl
  unfold HttpServer.reply
  rw [handleClient_some hrecv, hempty, handleClient_nil, ite_self]
  simp [arrival]

/-- A request that a server gets is answered. -/
theorem Link.Delivers.answered {r : HttpRequest} (hsend : r.Sendable)
    (hz : toInt server.buff_size ≠ 0) (hfit : r.dump.length ≤ server.buff_size)
    (hserves : server.Serves buff_size r) {req : HttpRequest} (hdump : req.dump = r.dump)
    (h : link.Delivers server req) (timeout_ms : Nat) :
    ∃ r' rsp, r.Received r' ∧ (server.answer r').Same rsp ∧
      link.request buff_size req timeout_ms =
        some { result := .OK, response := some rsp, error := bytes "ok" } := by
  have hrecv := hsend.recvRequest_dump hz hfit [] []
  have hreceived := hsend.received
  rw [List.append_nil] at hrecv
  generalize r.arrived.init = r' at hrecv hreceived
  obtain ⟨rsp, hrsp, hsame⟩ := hserves.answered hreceived
  have hsmall : req.dump.length < 2 ^ 31 := by
    rw [hdump]
    exact hsend.small
  have hall := sendRequest_all hsmall h
  obtain ⟨rt, hrt, hpos⟩ := h.sent
  refine ⟨r', rsp, hreceived, hsame, ?_⟩
  unfold Link.request
  rw [hall, hrt, Option.map_some, if_neg (by omega), if_neg (by omega), h.reply, hdump,
    reply_dump hrecv, hrsp]

end Answer

/-- The request that the servlets of the server see: method, target and body are what the URL and
the caller ask for, the connection is kept if a header says so, and each header has the last value
of the caller, apart from those of the connection and of the length; `Host` is the host of the URL
if the caller has none. -/
structure Asked (verb : HttpMethod) (uri : Uri) (host : List UInt8)
    (given : List (List UInt8 × List UInt8)) (content : List UInt8) (r : HttpRequest) : Prop where
  method : r.method = verb
  path : r.path = uri.getPath
  query : r.query = uri.query
  fragment : r.fragment = uri.fragment
  body : r.body = content
  close : r.close = !keepsAlive given
  headers : ∀ k, r.headers.find k =
    if strcaseEq k (bytes "connection") then some (closeText r.close)
    else if content ≠ [] ∧ strcaseEq k (bytes "content-length") then
      some (decimal content.length)
    else if strcaseEq k (bytes "host") ∧ namesHost given = false then some host
    else lastOf given k

theorem asked_of_received {method : HttpMethod} {uri : Uri} {host : List UInt8}
    {headers : List (List UInt8 × List UInt8)} {body : List UInt8} {r : HttpRequest}
    (h : (withHeaders (aimedAt method uri) headers host body).Received r) :
    Asked method uri host headers body r := by
  have hreq : (aimedAt method uri).headers = [] := rfl
  have hframe := withHeaders_frame headers host body hreq
  have hfind := find_withHeaders headers host body hreq
  generalize withHeaders (aimedAt method uri) headers host body = w at h hframe hfind
  have hbody : w.body = body := by rw [hframe]
  have hclose : w.close = !keepsAlive headers := by
    rw [hframe]
    rfl
  refine ⟨?_, ?_, ?_, ?_, h.body.trans hbody, h.close.trans hclose, fun k => ?_⟩
  · rw [h.method, hframe]
    rfl
  · rw [h.path, hframe]
    rfl
  · rw [h.query, hframe]
    rfl
  · rw [h.fragment, hframe]
    rfl
  · rw [h.headers, h.close, hbody, hfind]
    by_cases hconn : strcaseEq k (bytes "connection") = true
    · rw [if_pos hconn, if_pos hconn]
    · rw [if_neg hconn, if_neg hconn, if_neg hconn]

/-- A URL with a scheme that `Uri::Create` accepts is fetched: the servlets of the server get the
request that the URL, the headers and the body ask for, and the caller gets their answer to it. -/
theorem fetch_answered {net : Network} {server : HttpServer} {url : List UInt8} {u : Uri}
    (hlen : url.length < 2 ^ 16) (hcreate : Uri.create url = .ok (some u))
    (hscheme : u.scheme ≠ []) {method : HttpMethod} (hknown : method ≠ .INVALID_METHOD)
    (hmethod : method ≠ .CONNECT) {headers : List (List UInt8 × List UInt8)} {body : List UInt8}
    (hconveys : Conveys headers body)
    (hhead : (requestTo method u headers body).dump.length ≤ maxHeaderSize + body.length)
    (hsmall : (requestTo method u headers body).dump.length < 2 ^ 31)
    (hfit : (requestTo method u headers body).dump.length ≤ server.buff_size)
    (hz : toInt server.buff_size ≠ 0)
    (hserves : server.Serves net.buff_size (requestTo method u headers body))
    (hreaches : net.Reaches server u (requestTo method u headers body)) (timeout_ms : Nat) :
    ∃ r rsp, Asked method u u.host headers body r ∧ (server.answer r).Same rsp ∧
      HttpConnection.doRequest net method url timeout_ms headers body =
        .ok (some { result := .OK, response := some rsp, error := bytes "ok" }) := by
  obtain ⟨l, rfl, rfl⟩ := exists_uri hlen hcreate hscheme
  have hsend : (requestTo method l.uri headers body).Sendable :=
    sendable_withHeaders rfl (aimed_uri l hlen hknown hmethod) hconveys (isHostValue_authority _)
      hhead hsmall
  obtain ⟨addr, haddr⟩ := Option.isSome_iff_exists.mp hreaches.address
  -- `sendRequest` is called with the address that was found
  have hdelivers : { net.link with remote := addr }.Delivers server
      (requestTo method l.uri headers body) :=
    ⟨hreaches.delivers.honest, hreaches.delivers.sent, hreaches.delivers.reply⟩
  obtain ⟨r, rsp, hreceived, hsame, hrequest⟩ :=
    hdelivers.answered hsend hz hfit hserves rfl timeout_ms
  refine ⟨r, rsp, asked_of_received hreceived, hsame, ?_⟩
  unfold HttpConnection.doRequest HttpConnection.doRequestTo HttpConnection.doRequestOf
  rw [hcreate]
  dsimp only [Except.map]
  rw [haddr]
  dsimp only
  rw [hreaches.socket, hreaches.connected, Bool.not_true, if_neg Bool.false_ne_true,
    if_neg Bool.false_ne_true, hrequest]

/-- A form sent to the server, with its own idea of the connection. -/
def formHeaders : List (List UInt8 × List UInt8) :=
  [(bytes "Accept", bytes "*/*"), (bytes "Connection", bytes "Keep-Alive")]

theorem conveys_formHeaders : Conveys formHeaders (bytes "a=1") where
  names := by decide
  values := by decide
  good := by decide
  coding := by decide
  upgrade := by decide
  length := fun hbody => absurd hbody (by decide)

def formUri : Uri where
  scheme := bytes "http"
  host := bytes "b"
  path := bytes "/p"
  query := bytes "q=/?"
  fragment := bytes "f"
  port := 80

def formRequest : HttpRequest := requestTo .POST formUri formHeaders (bytes "a=1")

/-- The request goes out in two writes. -/
def formLink : Link where
  remote := bytes "127.0.0.1:80"
  writes := [3, formRequest.dump.length - 3]
  reply := wordServer.reply
  errno := 0
  strerror := bytes "Success"

theorem length_formRequest : formRequest.dump.length ≤ 200 := by decide +kernel

theorem delivers_formLink : formLink.Delivers wordServer formRequest where
  honest := by
    unfold Stream.Plain.Honest
    decide +kernel
  sent := ⟨formRequest.dump.length, by decide +kernel, by decide +kernel⟩
  reply := rfl

def formNetwork : Network where
  createAddress := fun _ => some (bytes "127.0.0.1:80")
  CreateTCP := true
  connect := true
  link := formLink
  buff_size := 4096

theorem fetch_answered_form :
    ∃ r rsp, Asked .POST formUri (bytes "b") formHeaders (bytes "a=1") r ∧
      (wordServer.answer r).Same rsp ∧
      HttpConnection.doRequest formNetwork .POST (bytes "http://b/p?q=/?#f") 1000 formHeaders
        (bytes "a=1") = .ok (some { result := .OK, response := some rsp, error := bytes "ok" }) :=
  fetch_answered (u := formUri) (by decide) (by decide +kernel) (by decide) (by decide)
    (by decide) conveys_formHeaders
    (length_formRequest.trans ((show 200 ≤ maxHeaderSize by decide).trans (Nat.le_add_right _ _)))
    (length_formRequest.trans_lt (by decide)) (length_formRequest.trans (by decide)) (by decide)
    (serves_wordServer rfl) ⟨rfl, rfl, rfl, delivers_formLink⟩ 1000

/-! ## The pool -/

/-- What the loop over the headers does to the map and to `has_host` does not depend on the
request line. -/
theorem foldl_addHeader_congr {r t : HttpRequest} (h : r.headers = t.headers) (has_host : Bool)
    (headers : List (List UInt8 × List UInt8)) :
    (headers.foldl addHeader (r, has_host)).1.headers =
        (headers.foldl addHeader (t, has_host)).1.headers ∧
      (headers.foldl addHeader (r, has_host)).2 = (headers.foldl addHeader (t, has_host)).2 := by
  induction headers generalizing r t has_host with
  | nil => exact ⟨h, rfl⟩
  | cons i rest ih =>
      rw [List.foldl_cons, List.foldl_cons]
      cases hconn : strcaseEq i.1 (bytes "connection") with
      | true =>
          rw [addHeader_connection hconn, addHeader_connection hconn]
          refine ih ?_ _
          split
          · exact h
          · exact h
      | false =>
          rw [addHeader_other hconn, addHeader_other hconn]
          refine ih ?_ _
          show r.headers.set i.1 i.2 = t.headers.set i.1 i.2
          rw [h]

theorem withHeaders_congr {r t : HttpRequest} (h : r.headers = t.headers)
    (headers : List (List UInt8 × List UInt8)) (host body : List UInt8) :
    (withHeaders r headers host body).headers = (withHeaders t headers host body).headers := by
  obtain ⟨hmap, hhas⟩ := foldl_addHeader_congr h false headers
  unfold withHeaders
  dsimp only
  rw [hhas]
  split
  · exact hmap
  · show HeaderMap.set _ _ _ = HeaderMap.set _ _ _
    rw [hmap]

/-- On the wire the path of the pool is path, query and fragment. -/
theorem dump_urlText (method : HttpMethod) (uri : Uri) (headers : List (List UInt8 × List UInt8))
    (host body : List UInt8) :
    (withHeaders { path := HttpConnectionPool.urlText uri, method } headers host body).dump =
      (withHeaders (aimedAt method uri) headers host body).dump := by
  have hmap := withHeaders_congr
    (r := { path := HttpConnectionPool.urlText uri, method }) (t := aimedAt method uri) rfl
    headers host body
  have hwhole : ({ path := HttpConnectionPool.urlText uri, method } : HttpRequest).headers = [] :=
    rfl
  have haim : (aimedAt method uri).headers = [] := rfl
  rw [withHeaders_frame headers host body hwhole,
    withHeaders_frame headers host body haim, hmap]
  unfold HttpRequest.dump aimedAt HttpConnectionPool.urlText
  simp only [List.append_assoc, if_true, List.nil_append]

/-- A request of the pool is answered as one by URL is: the servlets of the server see the path,
the query and the fragment apart, and the host of the pool. -/
theorem pool_answered (pool : HttpConnectionPool) {server : HttpServer} {link : Link}
    (url : List UInt8) {u : Uri} (hlen : url.length < 2 ^ 16)
    (hcreate : Uri.create url = .ok (some u)) (hscheme : u.scheme ≠ []) {method : HttpMethod}
    (hknown : method ≠ .INVALID_METHOD) (hmethod : method ≠ .CONNECT)
    {headers : List (List UInt8 × List UInt8)} {body : List UInt8}
    (hconveys : Conveys headers body) (hhost : IsHostValue pool.hostName) {req : HttpRequest}
    (hreq : req = withHeaders { path := HttpConnectionPool.urlText u, method } headers
      pool.hostName body)
    (hhead : req.dump.length ≤ maxHeaderSize + body.length) (hsmall : req.dump.length < 2 ^ 31)
    (hfit : req.dump.length ≤ server.buff_size) (hz : toInt server.buff_size ≠ 0) {buff_size : Nat}
    (hserves : server.Serves buff_size (withHeaders (aimedAt method u) headers pool.hostName body))
    (hdelivers : link.Delivers server req) (timeout_ms : Nat) :
    ∃ r rsp, Asked method u pool.hostName headers body r ∧ (server.answer r).Same rsp ∧
      pool.doRequestTo (some (some link)) buff_size method u timeout_ms headers body =
        some { result := .OK, response := some rsp, error := bytes "ok" } := by
  obtain ⟨l, rfl, rfl⟩ := exists_uri hlen hcreate hscheme
  have hdump : req.dump = (withHeaders (aimedAt method l.uri) headers pool.hostName body).dump := by
    rw [hreq]
    exact dump_urlText method l.uri headers pool.hostName body
  rw [hdump] at hhead hsmall hfit
  have hsend :=
    sendable_withHeaders rfl (aimed_uri l hlen hknown hmethod) hconveys hhost hhead hsmall
  obtain ⟨r, rsp, hreceived, hsame, hrequest⟩ :=
    hdelivers.answered hsend hz hfit hserves hdump timeout_ms
  refine ⟨r, rsp, asked_of_received hreceived, hsame, ?_⟩
  rw [hreq] at hrequest
  exact hrequest

/-- Only the text of the request matters. -/
theorem Link.Delivers.congr {link : Link} {server : HttpServer} {req r : HttpRequest}
    (hdump : req.dump = r.dump) (h : link.Delivers server r) : link.Delivers server req where
  honest := by
    rw [hdump]
    exact h.honest
  sent := by
    unfold Link.sendRequest
    rw [hdump]
    exact h.sent
  reply := h.reply

/-- The pool of the server with a name of its own for the host. -/
def formPool : HttpConnectionPool where
  host := bytes "127.0.0.1"
  vhost := bytes "b"
  port := 80

theorem pool_answered_form :
    ∃ r rsp, Asked .POST formUri (bytes "b") formHeaders (bytes "a=1") r ∧
      (wordServer.answer r).Same rsp ∧
      formPool.doRequestTo (some (some formLink)) 4096 .POST formUri 1000 formHeaders
        (bytes "a=1") = some { result := .OK, response := some rsp, error := bytes "ok" } := by
  have hdump := dump_urlText .POST formUri formHeaders (bytes "b") (bytes "a=1")
  have hlen : (withHeaders { path := HttpConnectionPool.urlText formUri, method := .POST }
      formHeaders formPool.hostName (bytes "a=1")).dump.length ≤ 200 := by
    decide +kernel
  exact pool_answered formPool (bytes "http://b/p?q=/?#f") (by decide)
    (by decide +kernel) (by decide) (by decide) (by decide) conveys_formHeaders
    ⟨by decide, by decide⟩ rfl
    (hlen.trans ((show 200 ≤ maxHeaderSize by decide).trans (Nat.le_add_right _ _)))
    (hlen.trans_lt (by decide)) (hlen.trans (by decide)) (by decide) (serves_wordServer rfl)
    (delivers_formLink.congr hdump) 1000

end Gxh.Http
