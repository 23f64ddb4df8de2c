import Gxh.Http.Received
import Gxh.Streams.FixSize
import Gxh.Uri.Create

/-!
# Requests by URL

`HttpConnection::DoRequest`, `DoGet` and `DoPost` and the same functions of `HttpConnectionPool`
(`http_connection.cc`): the request that is made of a URL, of the headers of the caller and of a
body, the connection, and what becomes of it. What the system calls answer is an input (`Link`,
`Network`).

* `find_withHeaders` — the headers of the request: for each name the last entry of the caller,
  and a `Host` where the caller has none;
* `sendable_withHeaders` — the request can be sent if its request line can be.
-/

namespace Gxh.Http

open HttpParser

/-- `HttpResult::Error`. -/
inductive HttpError
  | OK
  | INVALID_URL
  | INVALID_HOST
  | CONNECT_FAIL
  | SEND_CLOSE_BY_PEER
  | SEND_SOCKET_ERROR
  | TIMEOUT
  | CREATE_SOCKET_ERROR
  | POOL_GET_CONNECTION
  | POOL_INVALID_CONNECTION
  deriving DecidableEq, Repr

/-- `HttpResult`. -/
structure HttpResult where
  result : HttpError
  response : Option HttpResponse
  error : List UInt8
  deriving DecidableEq, Repr

/-! ## The request -/

/-- The body of the loop over the headers of the caller: the request, and `has_host`. -/
def addHeader (s : HttpRequest × Bool) (i : List UInt8 × List UInt8) : HttpRequest × Bool :=
  if strcaseEq i.1 (bytes "connection") then
    (if strcaseEq i.2 (bytes "keep-alive") then { s.1 with close := false } else s.1, s.2)
  else
    (s.1.setHeader i.1 i.2,
      if !s.2 && strcaseEq i.1 (bytes "host") then decide (i.2 ≠ []) else s.2)

/-- The headers of the caller, the default of `Host`, and the body. -/
def withHeaders (req : HttpRequest) (headers : List (List UInt8 × List UInt8))
    (host body : List UInt8) : HttpRequest :=
  let s := headers.foldl addHeader (req, false)
  let req := if s.2 then s.1 else s.1.setHeader (bytes "Host") host
  { req with body }

/-- Path, query, fragment and method are set from the URL. -/
def aimedAt (method : HttpMethod) (uri : Uri) : HttpRequest where
  path := uri.getPath
  query := uri.query
  fragment := uri.fragment
  method := method

/-- The request of `HttpConnection::DoRequest(method, uri, …)`. -/
def requestTo (method : HttpMethod) (uri : Uri) (headers : List (List UInt8 × List UInt8))
    (body : List UInt8) : HttpRequest :=
  withHeaders (aimedAt method uri) headers uri.host body

/-! ## The connection -/

/-- What happens on a connection once it stands: the remote address as `toString` shows it, what
the calls of `write` answer, what arrives after the bytes that went out, and `errno` with its
text. -/
structure Link where
  remote : List UInt8
  writes : List Int
  reply : List UInt8 → Socket
  errno : Nat
  strerror : List UInt8

namespace Link

/-- `HttpConnection::sendRequest`: the bytes that go out, and what `writeFixSize` returns. -/
def sendRequest (link : Link) (req : HttpRequest) : List UInt8 × Option Int :=
  let r := Stream.Plain.writeFixSize req.dump req.dump.length link.writes
  (r.1, r.2.2)

/-- From `sendRequest` on, which both classes have; `none` while a `write` has not answered. -/
def request (link : Link) (buff_size : Nat) (req : HttpRequest) (timeout_ms : Nat) :
    Option HttpResult :=
  (link.sendRequest req).2.map fun rt : Int =>
    if rt = 0 then
      { result := .SEND_CLOSE_BY_PEER, response := none,
        error := bytes "send request closed by peer: " ++ link.remote }
    else if rt < 0 then
      { result := .SEND_SOCKET_ERROR, response := none,
        error := bytes "send request socket error errno=" ++ decimal link.errno ++
          bytes " errstr=" ++ link.strerror }
    else
      match recvResponse buff_size (link.reply (link.sendRequest req).1) with
      | none =>
          { result := .TIMEOUT, response := none,
            error := bytes "recv response timeout: " ++ link.remote ++ bytes " timeout_ms:" ++
              decimal timeout_ms }
      | some rsp => { result := .OK, response := some rsp, error := bytes "ok" }

end Link

/-- What the calls before a connection stands answer. -/
structure Network where
  /-- `Uri::createAddress`, and the address as `toString` shows it -/
  createAddress : Uri → Option (List UInt8)
  CreateTCP : Bool
  connect : Bool
  link : Link
  /-- the buffer size of responses -/
  buff_size : Nat

namespace HttpConnection

variable (net : Network)

/-- `DoRequest(req, uri, timeout_ms)`. -/
def doRequestOf (req : HttpRequest) (uri : Uri) (timeout_ms : Nat) : Option HttpResult :=
  match net.createAddress uri with
  | none =>
      some { result := .INVALID_HOST, response := none,
             error := bytes "invalid host: " ++ uri.host }
  | some addr =>
      if !net.CreateTCP then
        some { result := .CREATE_SOCKET_ERROR, response := none,
               error := bytes "create socket fail: " ++ addr ++ bytes " errno=" ++
                 decimal net.link.errno ++ bytes " errstr=" ++ net.link.strerror }
      else if !net.connect then
        some { result := .CONNECT_FAIL, response := none,
               error := bytes "connect fail: " ++ addr }
      else { net.link with remote := addr }.request net.buff_size req timeout_ms

/-- `DoRequest(method, uri, …)`. -/
def doRequestTo (method : HttpMethod) (uri : Uri) (timeout_ms : Nat)
    (headers : List (List UInt8 × List UInt8)) (body : List UInt8) : Option HttpResult :=
  doRequestOf net (requestTo method uri headers body) uri timeout_ms

/-- `DoRequest(method, url, …)`; `std::stoi` throws in `Uri::Create`. -/
def doRequest (method : HttpMethod) (url : List UInt8) (timeout_ms : Nat)
    (headers : List (List UInt8 × List UInt8)) (body : List UInt8) :
    Except StoiError (Option HttpResult) :=
  (Uri.create url).map fun uri =>
    match uri with
    | none =>
        some { result := .INVALID_URL, response := none, error := bytes "invalid url: " ++ url }
    | some uri => doRequestTo net method uri timeout_ms headers body

/-- `DoGet(url, …)`. -/
def doGet := doRequest net .GET

/-- `DoPost(url, …)`. -/
def doPost := doRequest net .POST

end HttpConnection

/-- `HttpConnectionPool`, as far as its requests are concerned. -/
structure HttpConnectionPool where
  host : List UInt8
  vhost : List UInt8
  port : Nat

namespace HttpConnectionPool

variable (pool : HttpConnectionPool)

/-- Path, query and fragment in one text, which becomes the path. -/
def urlText (uri : Uri) : List UInt8 :=
  uri.getPath ++ (if uri.query = [] then [] else bytes "?") ++ uri.query ++
    (if uri.fragment = [] then [] else bytes "#") ++ uri.fragment

/-- The default of `Host`. -/
def hostName : List UInt8 := if pool.vhost = [] then pool.host else pool.vhost

/-- `doRequest(req, timeout_ms)`: what `getConnection` has given, and the socket of that. -/
def doRequestOf (conn : Option (Option Link)) (buff_size : Nat) (req : HttpRequest)
    (timeout_ms : Nat) : Option HttpResult :=
  let where_ := bytes "pool host:" ++ pool.host ++ bytes " port:" ++ decimal pool.port
  match conn with
  | none => some { result := .POOL_GET_CONNECTION, response := none, error := where_ }
  | some none => some { result := .POOL_INVALID_CONNECTION, response := none, error := where_ }
  | some (some link) => link.request buff_size req timeout_ms

/-- `doRequest(method, url, …)`. -/
def doRequest (conn : Option (Option Link)) (buff_size : Nat) (method : HttpMethod)
    (url : List UInt8) (timeout_ms : Nat) (headers : List (List UInt8 × List UInt8))
    (body : List UInt8) : Option HttpResult :=
  pool.doRequestOf conn buff_size
    (withHeaders { path := url, method } headers pool.hostName body) timeout_ms

/-- `doRequest(method, uri, …)`. -/
def doRequestTo (conn : Option (Option Link)) (buff_size : Nat) (method : HttpMethod) (uri : Uri) :=
  pool.doRequest conn buff_size method (urlText uri)

/-- `doGet(uri, …)`. -/
def doGet (conn : Option (Option Link)) (buff_size : Nat) := pool.doRequestTo conn buff_size .GET

/-- `doPost(uri, …)`. -/
def doPost (conn : Option (Option Link)) (buff_size : Nat) := pool.doRequestTo conn buff_size .POST

end HttpConnectionPool

/-! ## The headers of the request -/

/-- The last value that the caller has given for a name. -/
def lastOf (headers : List (List UInt8 × List UInt8)) (k : List UInt8) : Option (List UInt8) :=
  ((headers.filter fun i => strcaseEq i.1 k).getLast?).map Prod.snd

/-- The caller has given a host. -/
def namesHost (headers : List (List UInt8 × List UInt8)) : Bool :=
  headers.any fun i => strcaseEq i.1 (bytes "host") && i.2 ≠ []

/-- The caller wants to keep the connection. -/
def keepsAlive (headers : List (List UInt8 × List UInt8)) : Bool :=
  headers.any fun i => strcaseEq i.1 (bytes "connection") && strcaseEq i.2 (bytes "keep-alive")

theorem lastOf_concat (headers : List (List UInt8 × List UInt8)) (i : List UInt8 × List UInt8)
    (k : List UInt8) :
    lastOf (headers ++ [i]) k = if strcaseEq i.1 k then some i.2 else lastOf headers k := by
  unfold lastOf
  rw [List.filter_append, List.filter_singleton]
  cases strcaseEq i.1 k with
  | true =>
      rw [cond_true, List.getLast?_concat]
      rfl
  | false =>
      rw [cond_false, List.append_nil]
      rfl

theorem addHeader_connection {s : HttpRequest × Bool} {i : List UInt8 × List UInt8}
    (h : strcaseEq i.1 (bytes "connection") = true) :
    addHeader s i =
      (if strcaseEq i.2 (bytes "keep-alive") then { s.1 with close := false } else s.1, s.2) :=
  if_pos h

theorem addHeader_other {s : HttpRequest × Bool} {i : List UInt8 × List UInt8}
    (h : strcaseEq i.1 (bytes "connection") = false) :
    addHeader s i =
      (s.1.setHeader i.1 i.2,
        if !s.2 && strcaseEq i.1 (bytes "host") then decide (i.2 ≠ []) else s.2) :=
  if_neg (Bool.eq_false_iff.mp h)

/-- The request in the loop over the headers. -/
structure Gathered (req : HttpRequest) (headers : List (List UInt8 × List UInt8))
    (s : HttpRequest × Bool) : Prop where
  find : ∀ k, s.1.headers.find k =
    if strcaseEq k (bytes "connection") then none else lastOf headers k
  close : s.1.close = (req.close && !keepsAlive headers)
  has_host : s.2 = namesHost headers
  sorted : s.1.headers.Sorted
  entries : ∀ e ∈ s.1.headers, (∃ i ∈ headers, i.1 = e.1) ∧ ∃ i ∈ headers, i.2 = e.2
  frame : s.1 = { req with headers := s.1.headers, close := s.1.close }

theorem strcaseEq_congr_left {a b : List UInt8} (h : strcaseEq a b = true) (x : List UInt8) :
    strcaseEq a x = strcaseEq b x := by
  rw [Bool.eq_iff_iff, strcaseEq_iff, strcaseEq_iff, (strcaseEq_iff a b).mp h]

theorem strcaseEq_swap (a b : List UInt8) : strcaseEq a b = strcaseEq b a := by
  rw [Bool.eq_iff_iff, strcaseEq_iff, strcaseEq_iff, eq_comm]

theorem find_setHeader (r : HttpRequest) (key val k : List UInt8) :
    (r.setHeader key val).headers.find k =
      if strcaseEq key k then some val else r.headers.find k := by
  show (r.headers.set key val).find k = _
  rw [HeaderMap.find_set]
  by_cases hk : strcaseEq key k = true
  · rw [if_pos hk, if_pos ((strcaseEq_iff _ _).mp hk)]
  · rw [if_neg hk, if_neg (mt (strcaseEq_iff _ _).mpr hk)]

theorem sorted_setHeader {r : HttpRequest} (h : r.headers.Sorted) (key val : List UInt8) :
    (r.setHeader key val).headers.Sorted := by
  show (r.headers.set key val).Sorted
  rw [HeaderMap.set_eq]
  exact OrdMap.Sorted.set ranks_caseKey h

/-- An entry has its key from an entry before or from the new one, and so its value. -/
theorem mem_setHeader {r : HttpRequest} {key val : List UInt8} {e : List UInt8 × List UInt8}
    (he : e ∈ (r.setHeader key val).headers) :
    (e.1 = key ∨ ∃ x ∈ r.headers, x.1 = e.1) ∧ (e.2 = val ∨ ∃ x ∈ r.headers, x.2 = e.2) := by
  have he : e ∈ r.headers.set key val := he
  rw [HeaderMap.set_eq] at he
  rcases OrdMap.mem_set_parts he with hold | ⟨hval, hkey | ⟨w, hw⟩⟩
  · exact ⟨.inr ⟨e, hold, rfl⟩, .inr ⟨e, hold, rfl⟩⟩
  · exact ⟨.inl hkey, .inl hval⟩
  · exact ⟨.inr ⟨_, hw, rfl⟩, .inl hval⟩

section Gathered

variable {req : HttpRequest} {headers : List (List UInt8 × List UInt8)} {s : HttpRequest × Bool}
  {i : List UInt8 × List UInt8}

theorem keepsAlive_concat : keepsAlive (headers ++ [i]) = (keepsAlive headers ||
    strcaseEq i.1 (bytes "connection") && strcaseEq i.2 (bytes "keep-alive")) := by
  simp [keepsAlive]

theorem namesHost_concat : namesHost (headers ++ [i]) = (namesHost headers ||
    strcaseEq i.1 (bytes "host") && decide (i.2 ≠ [])) := by
  simp [namesHost]

/-- `connection` is not put into the map. -/
theorem Gathered.connection (h : Gathered req headers s)
    (hconn : strcaseEq i.1 (bytes "connection") = true) :
    Gathered req (headers ++ [i]) (addHeader s i) := by
  have hhost : strcaseEq i.1 (bytes "host") = false := by
    rw [strcaseEq_congr_left hconn]
    decide
  rw [addHeader_connection hconn]
  have hsame : (if strcaseEq i.2 (bytes "keep-alive") then { s.1 with close := false }
      else s.1).headers = s.1.headers := by
    split <;> rfl
  refine ⟨fun k => ?_, ?_, ?_, ?_, ?_, ?_⟩
  · rw [hsame, h.find, lastOf_concat]
    split
    · rfl
    · rename_i hk
      rw [strcaseEq_congr_left hconn, strcaseEq_swap, if_neg hk]
  · rw [keepsAlive_concat, hconn]
    cases strcaseEq i.2 (bytes "keep-alive") with
    | true => simp
    | false => simp [h.close]
  · rw [namesHost_concat, hhost, h.has_host]
    simp
  · rw [hsame]
    exact h.sorted
  · rw [hsame]
    intro e he
    obtain ⟨⟨x, hx, hkey⟩, y, hy, hval⟩ := h.entries e he
    exact ⟨⟨x, List.mem_append_left _ hx, hkey⟩, y, List.mem_append_left _ hy, hval⟩
  · dsimp only
    split
    · rw [h.frame]
    · exact h.frame

theorem Gathered.other (h : Gathered req headers s)
    (hconn : strcaseEq i.1 (bytes "connection") = false) :
    Gathered req (headers ++ [i]) (addHeader s i) := by
  rw [addHeader_other hconn]
  refine ⟨fun k => ?_, ?_, ?_, sorted_setHeader h.sorted _ _, fun e he => ?_, ?_⟩
  · rw [find_setHeader, h.find, lastOf_concat]
    by_cases hk : strcaseEq i.1 k = true
    · have hother : strcaseEq k (bytes "connection") = false := by
        rw [← strcaseEq_congr_left hk, hconn]
      rw [if_pos hk, hother, if_pos hk]
      rfl
    · rw [if_neg hk, if_neg hk]
  · rw [keepsAlive_concat, hconn, Bool.false_and, Bool.or_false, ← h.close]
    rfl
  · rw [namesHost_concat, ← h.has_host]
    cases s.2 <;> cases strcaseEq i.1 (bytes "host") <;> simp
  · obtain ⟨hkey, hval⟩ := mem_setHeader he
    refine ⟨?_, ?_⟩
    · rcases hkey with hnew | ⟨x, hx, hkey⟩
      · exact ⟨i, List.mem_append_right _ List.mem_cons_self, hnew.symm⟩
      · obtain ⟨⟨y, hy, hyx⟩, -⟩ := h.entries x hx
        exact ⟨y, List.mem_append_left _ hy, hyx.trans hkey⟩
    · rcases hval with hnew | ⟨x, hx, hval⟩
      · exact ⟨i, List.mem_append_right _ List.mem_cons_self, hnew.symm⟩
      · obtain ⟨-, y, hy, hyx⟩ := h.entries x hx
        exact ⟨y, List.mem_append_left _ hy, hyx.trans hval⟩
  · dsimp only [HttpRequest.setHeader]
    rw [h.frame]

theorem gathered (hreq : req.headers = []) (headers : List (List UInt8 × List UInt8)) :
    Gathered req headers (headers.foldl addHeader (req, false)) := by
  induction headers using List.reverseRecOn with
  | nil =>
      refine ⟨fun k => ?_, ?_, rfl, ?_, ?_, rfl⟩
      · simp [hreq, HeaderMap.find, lastOf]
      · simp [keepsAlive]
      · simp [hreq, HeaderMap.Sorted, OrdMap.Sorted]
      · simp [hreq]
  | append_singleton headers i ih =>
      rw [List.foldl_concat]
      cases hconn : strcaseEq i.1 (bytes "connection") with
      | true => exact ih.connection hconn
      | false => exact ih.other hconn

end Gathered

/-! ## The request that is sent -/

section Sent

variable {req : HttpRequest} (headers : List (List UInt8 × List UInt8)) (host body : List UInt8)

/-- For each name the last value of the caller, and for `Host` the default without one. -/
theorem find_withHeaders (hreq : req.headers = []) (k : List UInt8) :
    (withHeaders req headers host body).headers.find k =
      if strcaseEq k (bytes "host") ∧ namesHost headers = false then some host
      else if strcaseEq k (bytes "connection") then none else lastOf headers k := by
  have h := gathered hreq headers
  unfold withHeaders
  dsimp only
  rw [h.has_host]
  cases namesHost headers with
  | true =>
      rw [if_pos rfl, if_neg (by simp)]
      exact h.find k
  | false =>
      rw [if_neg Bool.false_ne_true, find_setHeader, h.find]
      have hname : strcaseEq (bytes "Host") k = strcaseEq k (bytes "host") := by
        rw [strcaseEq_swap, Bool.eq_iff_iff, strcaseEq_iff, strcaseEq_iff]
        exact Iff.rfl
      rw [hname]
      simp only [and_true]

/-- Everything else is that of `req`, apart from the close flag. -/
theorem withHeaders_frame (hreq : req.headers = []) :
    withHeaders req headers host body =
      { req with
        headers := (withHeaders req headers host body).headers
        close := req.close && !keepsAlive headers
        body } := by
  have h := gathered hreq headers
  have hframe := h.frame
  rw [h.close] at hframe
  unfold withHeaders
  dsimp only
  split
  · rw [hframe]
  · rw [hframe]
    rfl

/-- An entry has its key and its value from the caller or from the default of `Host`. -/
theorem mem_withHeaders (hreq : req.headers = []) {e : List UInt8 × List UInt8}
    (he : e ∈ (withHeaders req headers host body).headers) :
    (e.1 = bytes "Host" ∨ ∃ i ∈ headers, i.1 = e.1) ∧ (e.2 = host ∨ ∃ i ∈ headers, i.2 = e.2) := by
  have h := gathered hreq headers
  unfold withHeaders at he
  dsimp only at he
  split at he
  · obtain ⟨hkey, hval⟩ := h.entries e he
    exact ⟨.inr hkey, .inr hval⟩
  · obtain ⟨hkey, hval⟩ := mem_setHeader he
    refine ⟨?_, ?_⟩
    · rcases hkey with hnew | ⟨x, hx, hkey⟩
      · exact .inl hnew
      · rw [← hkey]
        exact .inr (h.entries x hx).1
    · rcases hval with hnew | ⟨x, hx, hval⟩
      · exact .inl hnew
      · rw [← hval]
        exact .inr (h.entries x hx).2

theorem sorted_withHeaders (hreq : req.headers = []) :
    (withHeaders req headers host body).headers.Sorted := by
  have h := gathered hreq headers
  unfold withHeaders
  dsimp only
  split
  · exact h.sorted
  · exact sorted_setHeader h.sorted _ _

/-- Headers that can be sent with a body: none that frames the message or asks for another
protocol. -/
structure Conveys (headers : List (List UInt8 × List UInt8)) (body : List UInt8) : Prop where
  names : ∀ i ∈ headers, isToken i.1 = true
  values : ∀ i ∈ headers, isFieldText i.2 = true
  good : ∀ i ∈ headers, goodValue i.2 = true
  coding : ∀ i ∈ headers, named "transfer-encoding" i = false
  upgrade : ∀ i ∈ headers, named "upgrade" i = false
  length : body = [] → ∀ i ∈ headers, named "content-length" i = false

/-- A request line that can be sent. -/
structure Aimed (req : HttpRequest) : Prop where
  known : req.method ≠ .INVALID_METHOD
  method : req.method ≠ .CONNECT
  version : req.version >>> 4 < 10 ∧ req.version &&& 0x0F < 10
  websocket : req.websocket = false
  absolute : req.path.head? = some ('/' : UInt8)
  path : ∀ c ∈ req.path, isUrlChar c = true
  query : ∀ c ∈ req.query, isQueryChar c = true
  fragment : ∀ c ∈ req.fragment, isFragmentChar c = true
  hash : req.fragment.head? ≠ some ('#' : UInt8)
  target : req.target.length < 2 ^ 16

/-- A host that can be the value of a header. -/
def IsHostValue (host : List UInt8) : Prop := isFieldText host = true ∧ goodValue host = true

variable {headers host body}

theorem sendable_withHeaders (hreq : req.headers = []) (haim : Aimed req)
    (hconveys : Conveys headers body) (hhost : IsHostValue host)
    (hhead : (withHeaders req headers host body).dump.length ≤ maxHeaderSize + body.length)
    (hsmall : (withHeaders req headers host body).dump.length < 2 ^ 31) :
    (withHeaders req headers host body).Sendable := by
  have hframe := withHeaders_frame headers host body hreq
  have hmem := fun e => mem_withHeaders headers host body hreq
    (e := e)
  have hsorted := sorted_withHeaders headers host body hreq
  generalize withHeaders req headers host body = r at *
  -- a key or a value is one of the caller's, or belongs to the default of `Host`
  have hkeys : ∀ P : List UInt8 → Prop, P (bytes "Host") → (∀ i ∈ headers, P i.1) →
      ∀ e ∈ r.headers, P e.1 := by
    intro P hdefault hcaller e he
    rcases (hmem e he).1 with heq | ⟨i, hi, heq⟩
    · rw [heq]
      exact hdefault
    · rw [← heq]
      exact hcaller i hi
  have hvalues : ∀ P : List UInt8 → Prop, P host → (∀ i ∈ headers, P i.2) →
      ∀ e ∈ r.headers, P e.2 := by
    intro P hdefault hcaller e he
    rcases (hmem e he).2 with heq | ⟨i, hi, heq⟩
    · rw [heq]
      exact hdefault
    · rw [← heq]
      exact hcaller i hi
  have hbody : r.body = body := by rw [hframe]
  exact
    { websocket := by rw [hframe]; exact haim.websocket
      absolute := by rw [hframe]; exact haim.absolute
      path := by rw [hframe]; exact haim.path
      query := by
        rw [hframe]
        intro c hc
        simpa [isQueryChar] using haim.query c hc
      fragment := by
        rw [hframe]
        intro c hc
        simpa [isFragmentChar, or_assoc] using haim.fragment c hc
      sorted := hsorted
      names := hkeys (isToken · = true) (by decide) hconveys.names
      values := hvalues (isFieldText · = true) hhost.1 hconveys.values
      coding := hkeys (strcaseEq · (bytes "transfer-encoding") = false) (by decide)
        hconveys.coding
      known := by rw [hframe]; exact haim.known
      method := by rw [hframe]; exact haim.method
      version := by rw [hframe]; exact haim.version
      hash := by rw [hframe]; exact haim.hash
      target := by rw [hframe]; exact haim.target
      good := hvalues (goodValue · = true) hhost.2 hconveys.good
      upgrade := hkeys (strcaseEq · (bytes "upgrade") = false) (by decide) hconveys.upgrade
      length := by
        intro hnil
        exact hkeys (strcaseEq · (bytes "content-length") = false) (by decide)
          (hconveys.length (hbody.symm.trans hnil))
      head := by rw [hbody]; exact hhead
      small := hsmall }

end Sent

end Gxh.Http
