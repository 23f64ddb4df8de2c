import Gxh.HttpParser.RequestRun
import Gxh.HttpParser.UpgradeHeader
import Gxh.Http.Client
import Gxh.Http.Framing

/-!
# Reading a request

What becomes of a request that `HttpConnection::sendRequest` has written when `recvRequest` reads
it: the request line, the header lines and the body go through the callbacks of
`HttpRequestParser`, and the server has the request the client had.
-/

namespace Gxh.Http

open HttpParser

namespace HttpRequest

/-- A request that `http_parser` takes: a method other than `CONNECT`, a version of two digits, a
target of which the offsets fit, header values it has nothing against, and no header that frames
the message or asks for another protocol. -/
structure Sendable (r : HttpRequest) : Prop extends r.Plain where
  known : r.method ≠ .INVALID_METHOD
  method : r.method ≠ .CONNECT
  version : r.version >>> 4 < 10 ∧ r.version &&& 0x0F < 10
  hash : r.fragment.head? ≠ some '#'
  target : r.target.length < 2 ^ 16
  good : ∀ i ∈ r.headers, goodValue i.2 = true
  upgrade : ∀ i ∈ r.headers, named "upgrade" i = false
  length : r.body = [] → ∀ i ∈ r.headers, named "content-length" i = false
  head : r.dump.length ≤ maxHeaderSize + r.body.length
  small : r.dump.length < 2 ^ 31

/-- The request as it arrives: `dump` has written the headers of the connection and of the length
in place of those of the map. -/
structure Received (r r' : HttpRequest) : Prop where
  method : r'.method = r.method
  version : r'.version = r.version
  close : r'.close = r.close
  path : r'.path = r.path
  query : r'.query = r.query
  fragment : r'.fragment = r.fragment
  body : r'.body = r.body
  headers : ∀ k, r'.headers.find k =
    if strcaseEq k (bytes "connection") then some (closeText r.close)
    else if r.body ≠ [] ∧ strcaseEq k (bytes "content-length") then some (decimal r.body.length)
    else r.headers.find k

variable {r : HttpRequest}

/-- The entry of the map that the method is. -/
def verb (r : HttpRequest) : Method :=
  match r.method with
  | .ofMap m => m
  | .INVALID_METHOD => .GET

theorem method_eq (hknown : r.method ≠ .INVALID_METHOD) : r.method = .ofMap r.verb := by
  unfold verb
  cases hm : r.method with
  | ofMap m => rfl
  | INVALID_METHOD => exact absurd hm hknown

theorem Sendable.verb_ne (h : r.Sendable) : r.verb ≠ .CONNECT := by
  intro hconnect
  apply h.method
  rw [method_eq h.known, hconnect]

/-! ## The target -/

/-- The target in its parts. -/
def Sendable.tail (h : r.Sendable) : UrlTail where
  path := r.path
  mark := r.query ≠ []
  query := r.query
  hashes := if r.fragment = [] then 0 else 1
  fragment := r.fragment
  path_slash := by
    intro c hc
    have habsolute := h.absolute
    rw [Option.mem_def.mp hc] at habsolute
    exact Option.some.inj habsolute
  path_chars := h.path
  query_chars := by
    intro c hc
    simpa [isQueryChar] using h.query c hc
  query_mark := by simp
  fragment_head := h.hash
  fragment_chars := by
    intro c hc
    simpa [isFragmentChar, or_assoc] using h.fragment c hc
  fragment_hash := by
    intro hzero
    by_contra hne
    rw [if_neg hne] at hzero
    cases hzero
  hashes_behind := by
    intro hnil
    have habsolute := h.absolute
    rw [hnil] at habsolute
    cases habsolute

theorem Sendable.tail_text (h : r.Sendable) : h.tail.text = r.target := by
  unfold UrlTail.text UrlTail.queryText UrlTail.fragmentText HttpRequest.target tail
  have hquery : (if r.query ≠ [] then ('?' : UInt8) :: r.query else []) =
      (if r.query = [] then [] else bytes "?") ++ r.query := by
    by_cases hnil : r.query = []
    · simp [hnil]
    · simp [hnil, show bytes "?" = [('?' : UInt8)] by decide]
  have hfragment : List.replicate (if r.fragment = [] then 0 else 1) ('#' : UInt8) ++ r.fragment =
      (if r.fragment = [] then [] else bytes "#") ++ r.fragment := by
    by_cases hnil : r.fragment = []
    · simp [hnil]
    · simp [hnil, show bytes "#" = [('#' : UInt8)] by decide]
  simp only [decide_eq_true_eq, hquery, hfragment, List.append_assoc]

/-- The callback of the target stores its parts. -/
theorem Sendable.url (h : r.Sendable) (s : Sink HttpRequest)
    (hs : s.data.query = [] ∧ s.data.fragment = []) :
    onRequestUrlCb r.target s =
      ({ s with data := { s.data with
        path := r.path, query := r.query, fragment := r.fragment } }, 0) := by
  have hne : h.tail.path ≠ [] := by
    intro hnil
    have habsolute := h.absolute
    rw [show r.path = [] from hnil] at habsolute
    cases habsolute
  have hlen : h.tail.text.length < 2 ^ 16 := by
    rw [h.tail_text]
    exact h.target
  have hwhole : Holds h.tail.text 0 h.tail.text := by
    intro i _
    rw [Nat.zero_add]
  have hparts := hwhole
  nth_rewrite 2 [UrlTail.text] at hparts
  obtain ⟨hpath, hrest⟩ := holds_append.mp hparts
  obtain ⟨hquery, hfragment⟩ := holds_append.mp hrest
  have hp : (h.tail.put {} 0).text .UF_PATH h.tail.text =
      if r.path = [] then none else some r.path := by
    refine h.tail.text_component hlen ?_ hpath
    rw [UrlTail.put, Url.put_other (by decide), Url.put_other (by decide), Url.put_self rfl]
    rfl
  have hq : (h.tail.put {} 0).text .UF_QUERY h.tail.text =
      if r.query = [] then none else some r.query := by
    have hplace : Holds h.tail.text (0 + r.path.length + 1) r.query := by
      unfold UrlTail.queryText at hquery
      split at hquery
      · rw [← List.singleton_append, holds_append] at hquery
        exact hquery.2
      · rename_i hmark
        have hnil : r.query = [] := by simpa [tail] using hmark
        rw [hnil]
        intro i hi
        cases hi
    refine h.tail.text_component hlen ?_ hplace
    rw [UrlTail.put, Url.put_other (by decide), Url.put_self]
    · rfl
    · rw [Url.put_other (by decide)]
  have hf : (h.tail.put {} 0).text .UF_FRAGMENT h.tail.text =
      if r.fragment = [] then none else some r.fragment := by
    have hplace := (holds_append.mp hfragment).2
    rw [List.length_replicate] at hplace
    refine h.tail.text_component hlen ?_ hplace
    rw [UrlTail.put, Url.put_self]
    · rfl
    · rw [Url.put_other (by decide), Url.put_other (by decide)]
  have hparse := h.tail.parseUrl_text hne
  rw [h.tail_text] at hp hq hf hparse
  have hpath' : r.path ≠ [] := hne
  have hor : ∀ l : List UInt8, (if l = [] then none else some l).getD [] = l := by
    intro l
    split
    · rename_i hnil
      rw [hnil]
      rfl
    · rfl
  unfold onRequestUrlCb
  rw [hparse]
  dsimp only
  rw [hp, hq, hf, hs.1, hs.2, hor, hor, if_neg hpath']
  rfl

/-! ## The head -/

/-- The request line with its parts in the order they are read. -/
theorem Sendable.requestLine_eq (h : r.Sendable) :
    ∃ cs, r.target = ('/' : UInt8) :: cs ∧ r.requestLine ++ crlf =
      (bytes r.verb.string ++ [(' ' : UInt8)]) ++ (('/' : UInt8) :: cs ++ [(' ' : UInt8)]) ++
        (bytes "HTTP/" ++ [digit (r.version >>> 4)] ++ [('.' : UInt8)] ++
          [digit (r.version &&& 0x0F)] ++ [CR, LF]) := by
  obtain ⟨cs, hcs⟩ : ∃ cs, r.target = ('/' : UInt8) :: cs := by
    have habsolute := h.absolute
    unfold HttpRequest.target
    cases hpath : r.path with
    | nil =>
        rw [hpath] at habsolute
        cases habsolute
    | cons c rest =>
        rw [hpath] at habsolute
        cases habsolute
        exact ⟨_, rfl⟩
  refine ⟨cs, hcs, ?_⟩
  have hprotocol : bytes " HTTP/" = (' ' : UInt8) :: bytes "HTTP/" := by decide
  rw [requestLine, method_eq h.known, httpMethodToString, hcs, decimal_of_lt h.version.1,
    decimal_of_lt h.version.2, hprotocol]
  simp [crlf, show bytes "." = [('.' : UInt8)] by decide,
    show bytes " " = [(' ' : UInt8)] by decide]

/-- What has come of a request when its first line is read: the method and the version come
last. -/
def lineOf (r : HttpRequest) : HttpRequest where
  path := r.path
  query := r.query
  fragment := r.fragment

/-- The request line. -/
theorem Sendable.reads_requestLine (h : r.Sendable) :
    Reads requestSettings (.between (.init .HTTP_REQUEST) ⟨{}, false, []⟩) (r.requestLine ++ crlf)
      True fun e' => ∃ p', p'.core =
          (Parser.ofRequest r.verb (r.version >>> 4) (r.version &&& 0x0F)).put
            .s_header_field_start (r.requestLine ++ crlf).length ∧
        p'.flags = {} ∧
        e' = .between p' ⟨r.lineOf, false, []⟩ := by
  obtain ⟨cs, hcs, hline⟩ := h.requestLine_eq
  have hroom : (r.requestLine ++ crlf).length ≤ maxHeaderSize := by
    have hhead := h.head
    rw [dump_eq h.websocket] at hhead
    simp only [List.length_append] at hhead ⊢
    omega
  have hlen : (r.requestLine ++ crlf).length =
      (bytes r.verb.string).length + cs.length + 13 := by
    rw [hline]
    simp only [List.length_append, List.length_cons, List.length_nil,
      show (bytes "HTTP/").length = 5 by decide]
    omega
  have halive : cs.foldl parseUrlChar .s_req_path ≠ .s_dead := by
    have hloop : urlLoop .s_req_server_start none false {} 0 h.tail.text =
        some (false, h.tail.put {} 0) := h.tail.urlLoop_text false {} 0 (.inl rfl) (by decide)
    rw [h.tail_text, hcs] at hloop
    exact urlLoop_alive (by decide) hloop
  have hurl : ∀ p : Parser, requestSettings.onData .url p (('/' : UInt8) :: cs) ⟨{}, false, []⟩ =
      (⟨r.lineOf, false, []⟩, 0) := by
    intro p
    rw [← hcs]
    exact h.url ⟨{}, false, []⟩ ⟨rfl, rfl⟩
  rw [hlen] at hroom ⊢
  rw [hline]
  exact HttpParser.reads_requestLine (fun _ _ => rfl) h.verb_ne halive hurl h.version.1 h.version.2
    hroom

/-- What the header callbacks of a request write. -/
theorem request_listens : requestSettings.Listens
    (fun l s => { s with field := l })
    (fun l s => { s with data := s.data.setHeader s.field l }) where
  field := fun _ _ _ => rfl
  value := fun _ _ _ => rfl

theorem readLines_eq (s : Sink HttpRequest) (fields : List (List UInt8 × List UInt8)) :
    ∃ f, readLines (fun l s => { s with field := l })
        (fun l s => { s with data := s.data.setHeader s.field l }) s fields =
      ⟨{ s.data with headers := HttpResponse.readMap s.data.headers fields }, s.finished, f⟩ := by
  induction fields generalizing s with
  | nil => exact ⟨s.field, rfl⟩
  | cons i rest ih => exact ih _

/-- No line but the one of the length frames the request. -/
theorem Sendable.freeLine (h : r.Sendable) : ∀ i ∈ r.fields, FreeLine i := by
  intro i hi
  rcases List.mem_cons.mp hi with rfl | hmem
  · exact freeLine_mk (by decide) (HttpResponse.closeText_good r.close).2.2
  · obtain ⟨hin, hkept⟩ := List.mem_filter.mp hmem
    have hlength : strcaseEq i.1 (bytes "content-length") = false := by
      by_cases hbody : r.body = []
      · exact h.length hbody i hin
      · simpa [hbody] using (Bool.and_eq_true_iff.mp hkept).2
    refine ⟨h.names i hin, ?_, ?_, HttpResponse.isFieldText_noLineEnd (h.values i hin)⟩
    · rw [ne_eq, ← strcaseEq_iff, hlength]
      decide
    · rw [ne_eq, ← strcaseEq_iff, show strcaseEq i.1 (bytes "transfer-encoding") = false from
        h.coding i hin]
      decide

theorem Sendable.goodValues (h : r.Sendable) : ∀ i ∈ r.fields, goodValue i.2 = true := by
  intro i hi
  rcases List.mem_cons.mp hi with rfl | hmem
  · exact (HttpResponse.closeText_good r.close).1
  · exact h.good i (List.mem_of_mem_filter hmem)

/-- No line asks for another protocol. -/
theorem Sendable.no_upgrade (h : r.Sendable) : ∀ i ∈ r.lines,
    i.1 ≠ [] ∧ (∀ c ∈ i.1, token c ≠ 0) ∧ i.1.map token ≠ bytes "upgrade" := by
  intro i hi
  have hother : caseKey i.1 ≠ caseKey (bytes "upgrade") := by
    rcases mem_lines hi with rfl | hmem | rfl
    · show caseKey (bytes "connection") ≠ _
      decide
    · rw [ne_eq, ← strcaseEq_iff, show strcaseEq i.1 (bytes "upgrade") = false from
        h.upgrade i hmem]
      decide
    · show caseKey (bytes "content-length") ≠ _
      decide
  obtain ⟨hne, htoken⟩ := isToken_iff.mp (h.line_ok hi).1
  exact ⟨hne, htoken, map_token_ne htoken (by decide +kernel) hother⟩

/-- The bytes of the head behind the request line. -/
theorem headerLines_flatMap (fields : List (List UInt8 × List UInt8)) :
    headerLines fields =
      (fields.map fun i => (i.1, (' ' : UInt8) :: i.2)).flatMap fun i =>
        i.1 ++ (':' : UInt8) :: (i.2 ++ [CR, LF]) := by
  rw [headerLines, List.flatMap_map]
  exact List.flatMap_congr fun i _ => headerLine_eq i.1 i.2

/-- The parser and the callbacks' object when the header lines are read. -/
theorem Sendable.reads_fields (h : r.Sendable) {p : Parser} {s : Sink HttpRequest} {n : Nat}
    (hcore : p.core = (Parser.ofRequest r.verb (r.version >>> 4) (r.version &&& 0x0F)).put
      .s_header_field_start n)
    (hroom : n + (headerLines r.lines).length + 2 ≤ maxHeaderSize) :
    Reads requestSettings (.between p s) (headerLines r.lines) True fun e' => ∃ p' f,
      p'.core = (framed (Parser.ofRequest r.verb (r.version >>> 4) (r.version &&& 0x0F))
        r.body).put .s_header_field_start (n + (headerLines r.lines).length) ∧
      LineStart requestSettings e' p' ⟨{ s.data with
        headers := HttpResponse.readMap s.data.headers r.lines }, s.finished, f⟩ := by
  have hmax : maxHeaderSize < 2 ^ 31 := by decide
  have hsplit : headerLines r.lines =
      headerLines r.fields ++ headerLines (lengthField r.body) := headerLines_append _ _
  rw [hsplit, List.length_append] at hroom ⊢
  have hnread : p.nread = n := congrArg Parser.nread hcore
  have hsmall : r.body.length < 2 ^ 32 := by
    have hdump := h.small
    rw [dump_eq h.websocket] at hdump
    simp only [List.length_append] at hdump
    omega
  have hread := reads_headerLines request_listens h.freeLine (.refl p s)
    (congrArg Parser.state hcore) (congrArg Parser.lenient_http_headers hcore) (by omega)
    (by omega)
  rw [hnread, hcore, Parser.put_put] at hread
  refine hread.seq (d := n + (headerLines r.fields).length +
    (headerLines (lengthField r.body)).length ≤ maxHeaderSize) ?_
    ⟨fun _ => trivial, fun _ => ⟨⟨h.goodValues, by omega⟩, by omega⟩⟩
  rintro - e' ⟨q, hcore', hstart⟩
  have hnread' : q.nread = n + (headerLines r.fields).length := congrArg Parser.nread hcore'
  have hread' := reads_lengthField request_listens hstart (congrArg Parser.state hcore')
    (congrArg (fun p => p.flags.F_CONTENTLENGTH) hcore')
    (congrArg Parser.lenient_http_headers hcore') (by omega) hsmall (by omega)
  rw [hnread'] at hread'
  refine hread'.conseq (.refl _) ?_
  rintro - e'' ⟨q', hcore'', hstart'⟩
  obtain ⟨f, hf⟩ := readLines_eq s r.lines
  rw [← readLines_append, ← lines, hf] at hstart'
  refine ⟨q', f, ?_, hstart'⟩
  rw [hcore'', hcore', Nat.add_assoc]
  unfold framed
  split <;> rfl

/-- The header lines leave the flag of an upgrade down. -/
theorem Sendable.upgrade_down (h : r.Sendable) {p₁ p₂ : Parser} {s₁ s₂ : Sink HttpRequest}
    {e₂ : Exec (Sink HttpRequest)} (hs₁ : p₁.state = .s_header_field_start)
    (hflags : p₁.flags = {}) (hs₂ : p₂.state = .s_header_field_start)
    (hn : p₂.nread + 1 ≤ maxHeaderSize) (herr : p₂.http_errno = .HPE_OK)
    (hstart : LineStart requestSettings e₂ p₂ s₂)
    (hrun : ∀ pos rest, parse requestSettings (.between p₁ s₁) pos (headerLines r.lines ++ rest) =
      parse requestSettings e₂ (pos + (headerLines r.lines).length) rest) :
    p₂.flags.F_UPGRADE = false := by
  have hCR : switch requestSettings (.between (p₂.put p₂.state (p₂.nread + 1)) s₂) CR =
      .next (.between (p₂.put .s_headers_almost_done (p₂.nread + 1)) s₂) := by
    unfold switch
    rw [hs₂]
    rfl
  obtain ⟨_, rfl, hone⟩ := (Reads.move (by rw [hs₂]; rfl) (by omega) hCR).accepts hn
  have hend := hrun 0 [CR]
  rw [hstart CR (by decide)] at hend
  have hstop : parse requestSettings
      (.between (p₂.put .s_headers_almost_done (p₂.nread + 1)) s₂)
      (0 + (headerLines r.lines).length + [CR].length) [] =
        some ⟨p₂.put .s_headers_almost_done (p₂.nread + 1), s₂,
          0 + (headerLines r.lines).length + [CR].length⟩ := if_pos herr
  have hstep := hone (0 + (headerLines r.lines).length) []
  rw [List.append_nil] at hstep
  rw [hstep, hstop, headerLines_flatMap] at hend
  refine lines_keep_upgrade ?_ ?_ ⟨.inl hs₁, by rw [Exec.between, hflags]⟩ hend
  · intro i hi
    obtain ⟨j, hj, rfl⟩ := List.mem_map.mp hi
    exact h.no_upgrade j hj
  · intro i hi c hc
    obtain ⟨j, hj, rfl⟩ := List.mem_map.mp hi
    rcases List.mem_cons.mp hc with rfl | hmem
    · decide
    · exact HttpResponse.isFieldText_noLineEnd (h.line_ok hj).2.1 c hmem

/-- What has come of a request when all its lines are read. -/
def headOf (r : HttpRequest) : HttpRequest :=
  { r.lineOf with headers := HttpResponse.readMap [] r.lines }

/-- What has come of a request when it is read. -/
def arrived (r : HttpRequest) : HttpRequest :=
  { r.headOf with method := r.method, version := r.version, body := r.body }

/-- What `http_parser` has when the header lines are read. -/
theorem Sendable.parse_fields (h : r.Sendable) :
    ∃ (p : Parser) (f : List UInt8),
      p.Asks (if r.body = [] then ULLONG_MAX else r.body.length) ∧
      p.state = .s_header_field_start ∧ p.nread + 2 ≤ maxHeaderSize ∧
      (p.http_major = r.version >>> 4 ∧ p.http_minor = r.version &&& 0x0F ∧
        p.method = r.verb) ∧
      ∀ rest, parse requestSettings (.between (.init .HTTP_REQUEST) ⟨{}, false, []⟩) 0
          (r.requestLine ++ crlf ++ headerLines r.lines ++ CR :: rest) =
        parse requestSettings (.between p ⟨r.headOf, false, f⟩)
          (r.requestLine ++ crlf ++ headerLines r.lines).length (CR :: rest) := by
  have hroom : (r.requestLine ++ crlf).length + (headerLines r.lines).length + 2 ≤
      maxHeaderSize := by
    have hhead := h.head
    rw [dump_eq h.websocket, ← lines] at hhead
    simp only [List.length_append, show crlf.length = 2 from rfl] at hhead ⊢
    omega
  obtain ⟨_, ⟨p₁, hcore₁, hnone, rfl⟩, hrun₁⟩ := h.reads_requestLine.accepts trivial
  obtain ⟨e₂, ⟨p₂, f, hcore₂, hstart⟩, hrun₂⟩ := (h.reads_fields
    (s := ⟨r.lineOf, false, []⟩) hcore₁ hroom).accepts trivial
  have hstate : p₂.state = .s_header_field_start := congrArg Parser.state hcore₂
  have hnread : p₂.nread = (r.requestLine ++ crlf).length + (headerLines r.lines).length :=
    congrArg Parser.nread hcore₂
  rw [framed_put] at hcore₂
  have herr : p₂.http_errno = .HPE_OK := congrArg Parser.http_errno hcore₂
  have hmethod : p₂.method = r.verb := congrArg Parser.method hcore₂
  have hlength : p₂.content_length = (framed (Parser.ofRequest r.verb (r.version >>> 4)
      (r.version &&& 0x0F)) r.body).content_length := by
    show p₂.core.content_length = _
    rw [hcore₂]
  have hframed : ∀ body, (framed (Parser.ofRequest r.verb (r.version >>> 4)
      (r.version &&& 0x0F)) body).content_length =
        if body = [] then ULLONG_MAX else body.length := by
    intro body
    unfold framed
    split <;> rfl
  have hflags : ∀ {P : Flags → Bool}, (∀ b, P { F_CONTENTLENGTH := b } = false) →
      P p₂.core.flags = false := by
    intro P hP
    rw [hcore₂]
    show P (framed _ _).flags = false
    unfold framed
    split
    · exact hP false
    · exact hP true
  refine ⟨p₂, f, ⟨congrArg Parser.type hcore₂, ?_, herr,
    hflags (P := Flags.F_TRAILING) fun _ => rfl, hflags (P := Flags.F_CHUNKED) fun _ => rfl,
    hflags (P := Flags.F_SKIPBODY) fun _ => rfl, ?_, hlength.trans (hframed r.body)⟩, hstate,
    by omega, ?_, ?_⟩
  · rw [hmethod]
    exact h.verb_ne
  · have hs₁ : p₁.state = .s_header_field_start := congrArg Parser.state hcore₁
    exact h.upgrade_down hs₁ hnone hstate (by omega) herr hstart hrun₂
  · exact ⟨congrArg Parser.http_major hcore₂, congrArg Parser.http_minor hcore₂, hmethod⟩
  · intro rest
    rw [List.append_assoc, hrun₁, hrun₂, hstart CR (by decide), Nat.zero_add,
      ← List.length_append]
    rfl

/-! ## The whole request -/

theorem Sendable.dump_eq (h : r.Sendable) :
    r.dump = r.requestLine ++ crlf ++ headerLines r.lines ++ CR :: LF :: r.body := by
  rw [HttpRequest.dump_eq h.websocket, lines]
  simp [crlf]

/-- What `on_headers_complete` is told. -/
theorem headersComplete_version {q : Parser} {s : Sink HttpRequest}
    (hknown : r.method ≠ .INVALID_METHOD) (hmajor : r.version >>> 4 < 10)
    (hq : q.http_major = r.version >>> 4 ∧ q.http_minor = r.version &&& 0x0F ∧
      q.method = r.verb) :
    requestSettings.onNotify .headers_complete q s =
      ({ s with data := { s.data with version := r.version, method := r.method } }, 0) := by
  have hversion : Parser.version q = r.version := by
    unfold Parser.version
    rw [hq.1, hq.2.1, HttpResponse.version_eq hmajor]
  show onRequestHeadersCompleteCb q s = _
  rw [onRequestHeadersCompleteCb, hversion, hq.2.2, ← method_eq hknown]

/-- A request that is written as one is read as one, to its last byte. -/
theorem Sendable.parse_dump (h : r.Sendable) :
    ∃ p f, p.upgrade = false ∧
      parse requestSettings (.between (.init .HTTP_REQUEST) ⟨{}, false, []⟩) 0 r.dump =
        some ⟨p, ⟨r.arrived, true, f⟩, r.dump.length⟩ := by
  obtain ⟨p, f, hasks, hstate, hroom, hnumbers, hrun⟩ := h.parse_fields
  have hcomplete : ∀ n, requestSettings.onNotify .headers_complete (p.complete n)
      ⟨r.headOf, false, f⟩ =
        (⟨{ r.headOf with version := r.version, method := r.method }, false, f⟩, 0) :=
    fun n => headersComplete_version h.known h.version.1 hnumbers
  have hdone : ∀ p u, requestSettings.onNotify .message_complete p u =
      ((fun s : Sink HttpRequest => { s with finished := true }) u, 0) := fun _ _ => rfl
  have hend := headersDone_eq requestSettings (p.nread + 2) hasks
    ⟨{ r.headOf with version := r.version, method := r.method }, false, f⟩
  rw [h.dump_eq, hrun]
  by_cases hbody : r.body = []
  · -- nothing follows, and the message is complete
    rw [if_pos hbody] at hend hasks
    rw [if_pos (.inr rfl)] at hend
    obtain ⟨q, hup, herr, hq⟩ : ∃ q : Parser, q.upgrade = false ∧ q.http_errno = .HPE_OK ∧
        messageComplete requestSettings (.between ((p.complete (p.nread + 2)).put .s_headers_done 0)
          ⟨{ r.headOf with version := r.version, method := r.method }, false, f⟩) .next =
            .next (.between q
              ⟨{ r.headOf with version := r.version, method := r.method }, true, f⟩) :=
      ⟨{ (p.complete (p.nread + 2)).put .s_headers_done 0 with
        state := ((p.complete (p.nread + 2)).put .s_headers_done 0).newMessage }, rfl, hasks.errno,
        rfl⟩
    rw [hq] at hend
    have hdata : { r.headOf with version := r.version, method := r.method } = r.arrived := by
      unfold arrived
      rw [hbody]
      rfl
    rw [hdata] at hend hcomplete
    obtain ⟨_, rfl, hparse⟩ :=
      (reads_requestHead hasks hstate (by omega) hcomplete ⟨_, hend, rfl⟩).accepts hroom
    refine ⟨q, f, hup, ?_⟩
    have hstep := hparse (r.requestLine ++ crlf ++ headerLines r.lines).length []
    rw [hbody]
    refine hstep.trans ?_
    have hpos : (r.requestLine ++ crlf ++ headerLines r.lines).length + 2 =
        (r.requestLine ++ crlf ++ headerLines r.lines ++ [CR, LF]).length := by
      simp only [List.length_append, List.length_cons, List.length_nil]
    rw [← hpos]
    exact if_pos herr
  · rw [if_neg hbody] at hend hasks
    have hne : ¬ (r.body.length = 0 ∨ r.body.length = ULLONG_MAX) := by
      rw [not_or]
      refine ⟨fun hz => hbody (List.length_eq_zero_iff.mp hz), ?_⟩
      have hlen := congrArg List.length h.dump_eq
      rw [List.length_append, List.length_cons, List.length_cons] at hlen
      have hsmall := h.small
      unfold ULLONG_MAX
      omega
    rw [if_neg hne] at hend
    obtain ⟨_, rfl, hparse⟩ :=
      (reads_requestHead hasks hstate (by omega) hcomplete ⟨_, hend, rfl⟩).accepts hroom
    have hbodyCb : ∀ p l u, requestSettings.onData .body p l u =
        ((fun l (s : Sink HttpRequest) => { s with data := s.data.appendBody l }) l u, 0) :=
      fun _ _ _ => rfl
    obtain ⟨q, hup, hq⟩ := parse_body hbodyCb hdone (Exec.setMark_between
      ((p.complete (p.nread + 2)).put .s_body_identity 0)
      ⟨{ r.headOf with version := r.version, method := r.method }, false, f⟩ .body)
      hbody rfl hasks.length rfl hasks.errno
      ((r.requestLine ++ crlf ++ headerLines r.lines).length + 2)
    refine ⟨q, f, hup, ?_⟩
    have hstep := hparse (r.requestLine ++ crlf ++ headerLines r.lines).length r.body
    refine hstep.trans (hq.trans ?_)
    have hpos : (r.requestLine ++ crlf ++ headerLines r.lines).length + 2 + r.body.length =
        (r.requestLine ++ crlf ++ headerLines r.lines ++ CR :: LF :: r.body).length := by
      simp only [List.length_append, List.length_cons]
      omega
    rw [hpos]
    rfl

/-! ## The headers -/

/-- The headers of the map that `dump` writes. -/
def kept (r : HttpRequest) : HeaderMap :=
  r.headers.filter fun i => !strcaseEq i.1 (bytes "connection") &&
    !(r.body ≠ [] && strcaseEq i.1 (bytes "content-length"))

/-- What is found of them in the map a server builds. -/
theorem Sendable.find_kept (h : r.Sendable) (m : HeaderMap) {k : List UInt8}
    (hk : strcaseEq k (bytes "connection") = false)
    (hlength : ¬ (r.body ≠ [] ∧ strcaseEq k (bytes "content-length") = true)) :
    (HttpResponse.readMap m r.kept).find k = (r.headers.find k).or (m.find k) := by
  have hdistinct : r.kept.Pairwise fun a b => caseKey a.1 ≠ caseKey b.1 :=
    (List.Pairwise.sublist List.filter_sublist h.sorted).imp fun hlt => ne_of_lt hlt
  have hmem : ∀ i : List UInt8 × List UInt8, caseKey i.1 = caseKey k →
      (i ∈ r.kept ↔ i ∈ r.headers) := by
    intro i hi
    have hsame : ∀ w, strcaseEq i.1 w = strcaseEq k w := by
      intro w
      rw [Bool.eq_iff_iff, strcaseEq_iff, strcaseEq_iff, hi]
    rw [kept, List.mem_filter, hsame, hsame, hk]
    refine and_iff_left ?_
    by_cases hbody : r.body = []
    · simp [hbody]
    · simpa [hbody] using fun hc => hlength ⟨hbody, hc⟩
  apply Option.ext
  intro v
  rw [HttpResponse.find_readMap hdistinct]
  cases hfind : r.headers.find k with
  | some w =>
      obtain ⟨i, hi, hik, hv⟩ := (HeaderMap.find_eq_some_iff h.sorted).mp hfind
      rw [Option.some_or]
      constructor
      · rintro (⟨j, hj, hjk, hjv⟩ | ⟨hnone, -⟩)
        · have hj' := (hmem j hjk).mp hj
          rw [HttpResponse.onWire_fieldText (h.values j hj')] at hjv
          rw [← hfind]
          exact (HeaderMap.find_eq_some_iff h.sorted).mpr ⟨j, hj', hjk, hjv⟩
        · exact absurd hik (hnone i ((hmem i hik).mpr hi))
      · intro hvw
        refine .inl ⟨i, (hmem i hik).mpr hi, hik, ?_⟩
        rw [HttpResponse.onWire_fieldText (h.values i hi), hv]
        exact Option.some.inj hvw
  | none =>
      rw [Option.none_or]
      have hnone : ∀ i ∈ r.kept, caseKey i.1 ≠ caseKey k := by
        intro i hi hik
        have hsome := (HeaderMap.find_eq_some_iff h.sorted).mpr
          ⟨i, (hmem i hik).mp hi, hik, rfl⟩
        rw [hfind] at hsome
        cases hsome
      constructor
      · rintro (⟨j, hj, hjk, -⟩ | ⟨-, hv⟩)
        · exact absurd hjk (hnone j hj)
        · exact hv
      · exact fun hv => .inr ⟨hnone, hv⟩

theorem find_readMap_other {l : List (List UInt8 × List UInt8)} {k : List UInt8}
    (hl : ∀ i ∈ l, caseKey i.1 ≠ caseKey k) (m : HeaderMap) :
    (HttpResponse.readMap m l).find k = m.find k := by
  induction l generalizing m with
  | nil => rfl
  | cons i rest ih =>
      obtain ⟨hi, hrest⟩ := List.forall_mem_cons.mp hl
      refine (ih hrest (m.set i.1 (onWire i.2))).trans ?_
      rw [HeaderMap.find_set, if_neg hi]

theorem find_readMap_length (body : List UInt8) (m : HeaderMap) (k : List UInt8) :
    (HttpResponse.readMap m (lengthField body)).find k =
      if body ≠ [] ∧ strcaseEq k (bytes "content-length") then some (decimal body.length)
      else m.find k := by
  unfold lengthField
  by_cases hbody : body = []
  · simp [hbody, HttpResponse.readMap]
  · rw [if_neg hbody, HttpResponse.readMap_one, HeaderMap.find_set, onWire_decimal]
    by_cases hk : strcaseEq k (bytes "content-length") = true
    · rw [if_pos ((strcaseEq_iff _ _).mp hk).symm, if_pos ⟨hbody, hk⟩]
    · rw [if_neg fun heq => hk ((strcaseEq_iff _ _).mpr heq.symm), if_neg fun hall => hk hall.2]

theorem Sendable.find_arrived (h : r.Sendable) (k : List UInt8) :
    r.arrived.headers.find k =
      if strcaseEq k (bytes "connection") then some (closeText r.close)
      else if r.body ≠ [] ∧ strcaseEq k (bytes "content-length") then some (decimal r.body.length)
      else r.headers.find k := by
  have hlines : r.arrived.headers = HttpResponse.readMap (HttpResponse.readMap (HeaderMap.set
      (bytes "connection") (onWire (closeText r.close)) []) r.kept) (lengthField r.body) := by
    rw [← HttpResponse.readMap_append]
    rfl
  have hwire := (HttpResponse.closeText_good r.close).2.1
  rw [hlines, find_readMap_length]
  by_cases hk : strcaseEq k (bytes "connection") = true
  · have hkey := (strcaseEq_iff _ _).mp hk
    have hnot : ¬ (r.body ≠ [] ∧ strcaseEq k (bytes "content-length") = true) := by
      rintro ⟨-, hc⟩
      have heq := hkey.symm.trans ((strcaseEq_iff _ _).mp hc)
      revert heq
      decide
    have hother : ∀ i ∈ r.kept, caseKey i.1 ≠ caseKey k := by
      intro i hi heq
      have hname := (strcaseEq_iff i.1 (bytes "connection")).mpr (heq.trans hkey)
      have hkept := (List.mem_filter.mp hi).2
      rw [hname] at hkept
      cases hkept
    rw [if_neg hnot, if_pos hk, find_readMap_other hother, HeaderMap.find_set, if_pos hkey.symm,
      hwire]
  · rw [if_neg hk]
    by_cases hc : r.body ≠ [] ∧ strcaseEq k (bytes "content-length") = true
    · rw [if_pos hc, if_pos hc]
    · rw [if_neg hc, if_neg hc, h.find_kept _ (by simpa using hk) hc, HeaderMap.find_set,
        if_neg fun heq => hk ((strcaseEq_iff _ _).mpr heq.symm)]
      exact Option.or_none

/-- What arrives is the request that was sent. -/
theorem Sendable.received (h : r.Sendable) : r.Received r.arrived.init := by
  have hconnection : r.arrived.getHeader (bytes "connection") = closeText r.close := by
    rw [getHeader, h.find_arrived, if_pos (by decide)]
    rfl
  have hinit : r.arrived.init = { r.arrived with close := r.close } := by
    unfold init
    simp only [hconnection]
    cases r.close with
    | true => rfl
    | false => rfl
  rw [hinit]
  exact ⟨rfl, rfl, rfl, rfl, rfl, rfl, rfl, h.find_arrived⟩

/-! ## The session -/

/-- A new parser takes the whole request in one call. -/
theorem Sendable.execute_dump (h : r.Sendable) :
    ∃ p f, HttpRequestParser.new.execute r.dump =
      (⟨p, ⟨r.arrived, true, f⟩, .HPE_OK⟩, r.dump.length) := by
  obtain ⟨p, f, hup, hparse⟩ := h.parse_dump
  have hne : r.dump ≠ [] := by
    rw [h.dump_eq]
    simp
  have hstart : (Exec.start (.init .HTTP_REQUEST) ⟨{}, false, []⟩ : Exec (Sink HttpRequest)) =
      .between (.init .HTTP_REQUEST) ⟨{}, false, []⟩ := rfl
  have hexec : HttpParser.execute requestSettings (.init .HTTP_REQUEST) ⟨{}, false, []⟩ r.dump =
      run requestSettings (.between (.init .HTTP_REQUEST) ⟨{}, false, []⟩) 0 r.dump := by
    unfold HttpParser.execute
    rw [if_neg (by decide), if_neg hne, hstart]
  unfold parse Result.accepted at hparse
  split at hparse
  · rename_i hok
    have hrun := Option.some.inj hparse
    rw [hrun] at hok
    refine ⟨p, f, ?_⟩
    have hok' : p.http_errno = .HPE_OK := hok
    unfold HttpRequestParser.execute MessageParser.executeWith HttpRequestParser.new
      MessageParser.new
    simp only [hexec, hrun, hup, hok', Bool.and_false, Bool.false_eq_true, if_false, ne_eq,
      not_true_eq_false]
  · cases hparse

theorem Sendable.recvRequest_dump (h : r.Sendable) {buff_size : Nat} (hz : toInt buff_size ≠ 0)
    (hfit : r.dump.length ≤ buff_size) (incoming : List UInt8) (reads : List Nat) :
    recvRequest buff_size ⟨r.dump ++ incoming, r.dump.length :: reads⟩ =
      (some r.arrived.init, ⟨incoming, reads⟩) := by
  obtain ⟨p, f, hexec⟩ := h.execute_dump
  have hlen : min r.dump.length (min (buff_size - 0) (r.dump ++ incoming).length) =
      r.dump.length := by
    rw [List.length_append]
    omega
  have hpos : r.dump.length ≠ 0 := by
    rw [h.dump_eq]
    simp
  unfold recvRequest
  simp only [recvLoop, List.length_nil, hlen, hpos, if_false, List.nil_append, List.take_left,
    List.drop_left, hexec, MessageParser.hasError, MessageParser.isFinished,
    MessageParser.getData, ne_eq, not_true_eq_false, decide_false, Bool.false_eq_true,
    List.drop_length, if_true]
  rw [if_neg fun heq => hz heq.symm]

end HttpRequest

/-- A request that a client has written and that comes in one read is received as it was sent,
whatever follows it, and what follows is left on the connection. -/
theorem request_received {buff_size : Nat} {r : HttpRequest} (h : r.Sendable)
    (hz : toInt buff_size ≠ 0) (hfit : r.dump.length ≤ buff_size) (incoming : List UInt8)
    (reads : List Nat) :
    ∃ r', recvRequest buff_size ⟨r.dump ++ incoming, r.dump.length :: reads⟩ =
      (some r', ⟨incoming, reads⟩) ∧ r.Received r' :=
  ⟨r.arrived.init, h.recvRequest_dump hz hfit incoming reads, h.received⟩

/-- A form with a header of each kind. -/
def sendForm : HttpRequest where
  method := .ofMap .PATCH
  close := false
  path := bytes "/login"
  query := bytes "next=/?"
  fragment := bytes "top"
  body := bytes "user=a"
  headers := [(bytes "Content-Length", bytes "60"), (bytes "Host", bytes "b")]

theorem sendable_sendForm : sendForm.Sendable where
  websocket := rfl
  absolute := rfl
  path := List.all_iff_forall_prop.mp (by decide)
  query := List.all_iff_forall_prop.mp (by decide)
  fragment := List.all_iff_forall_prop.mp (by decide)
  sorted := by unfold HeaderMap.Sorted OrdMap.Sorted; decide
  names := by decide
  values := by decide
  coding := by decide
  known := by decide
  method := by decide
  version := by decide
  hash := by decide
  target := by decide
  good := by decide
  upgrade := by decide
  length := fun hbody => absurd hbody (by decide)
  head := by
    have hlen : sendForm.dump.length ≤ 200 := by decide +kernel
    exact hlen.trans ((show 200 ≤ maxHeaderSize by decide).trans (Nat.le_add_right _ _))
  small := by
    have hlen : sendForm.dump.length ≤ 200 := by decide +kernel
    omega

theorem request_received_form :
    ∃ r', recvRequest 4096 ⟨sendForm.dump ++ bytes "GET", sendForm.dump.length :: [3]⟩ =
      (some r', ⟨bytes "GET", [3]⟩) ∧ sendForm.Received r' :=
  request_received sendable_sendForm (by decide) (by decide +kernel) (bytes "GET") [3]

end Gxh.Http
