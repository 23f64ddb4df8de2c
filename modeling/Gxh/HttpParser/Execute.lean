import Gxh.HttpParser.Basic

/-!
# The bundled `http_parser`: `http_parser_execute`

One call reads the bytes of a buffer in order. `turn` is one round of its `for` loop, `switch`
the `switch` in it, and every case that is more than a test and a new state is a definition of
its own. `REEXECUTE()` is a call of the case it jumps to; the jumps form no cycle.

* `Exec` holds the locals of a call. A mark is a pointer into the buffer; it is given by the
  bytes between it and `p`. `p_state` and `nread` are copies of parser fields that every
  `return` writes back, so the fields themselves stand for them. The same goes for `h_state`,
  which differs from `header_state` only inside the loop of `s_header_value`.
* The loops inside `s_header_field` and `s_header_value` read a byte each round without
  returning to the outer loop, and count what they read when they end. `scan` is `p - start`
  while one of them runs, so that the bytes are counted where the source counts them.
* `s_body_identity`, `s_body_identity_eof` and `s_chunk_data` skip over what the buffer holds
  of the body. Here they read it byte by byte under the same mark.
-/

namespace Gxh.HttpParser

variable {σ : Type}

/-- `http_parser_settings` over an embedder's object `σ`. A callback returns an `int`. -/
structure Settings (σ : Type) where
  onNotify : Notice → Parser → σ → σ × Int
  onData : Data → Parser → List UInt8 → σ → σ × Int

/-- The locals of `http_parser_execute`, the parser and the embedder's object. -/
structure Exec (σ : Type) where
  parser : Parser
  user : σ
  mark : Data → Option (List UInt8)
  scan : Option Nat

/-- How a round of the loop ends: the byte is consumed, or the call returns, with `n` more
than `p - data`. -/
inductive Turn (σ : Type)
  | next (e : Exec σ)
  | stop (e : Exec σ) (n : Nat)

namespace Exec

def goto (e : Exec σ) (s : State) : Exec σ := { e with parser := { e.parser with state := s } }

def modify (e : Exec σ) (f : Parser → Parser) : Exec σ := { e with parser := f e.parser }

def setErrno (e : Exec σ) (err : HttpErrno) : Exec σ :=
  { e with parser := { e.parser with http_errno := err } }

/-- `SET_ERRNO(err); goto error`. -/
def fail (e : Exec σ) (err : HttpErrno) : Turn σ := .stop (e.setErrno err) 0

/-- `MARK(d)`. -/
def setMark (e : Exec σ) (d : Data) : Exec σ :=
  { e with mark := Function.update e.mark d (some ((e.mark d).getD [])) }

/-- `COUNT_HEADER_SIZE(v)`. -/
def countHeaderSize (e : Exec σ) (v : Nat) (k : Exec σ → Turn σ) : Turn σ :=
  let e := e.modify fun p => { p with nread := (p.nread + v) % 2 ^ 32 }
  if maxHeaderSize < e.parser.nread then e.fail .HPE_HEADER_OVERFLOW else k e

/-- `STRICT_CHECK(cond)`. -/
def strictCheck (e : Exec σ) (cond : Bool) (k : Turn σ) : Turn σ :=
  if cond then e.fail .HPE_STRICT else k

/-- `CALLBACK_NOTIFY_(n, p - data + adv)`. -/
def callbackNotify (e : Exec σ) (settings : Settings σ) (n : Notice) (adv : Nat)
    (k : Exec σ → Turn σ) : Turn σ :=
  let (u, r) := settings.onNotify n e.parser e.user
  let e := { e with user := u }
  if r ≠ 0 then .stop (e.setErrno (.HPE_CB_notify n)) adv else k e

/-- `CALLBACK_DATA_(d, len, p - data + adv)`: `tail` is what `len` has beyond the bytes up to
`p`. -/
def callbackData (e : Exec σ) (settings : Settings σ) (d : Data) (tail : List UInt8) (adv : Nat)
    (k : Exec σ → Turn σ) : Turn σ :=
  match e.mark d with
  | none => k e
  | some l =>
      let (u, r) := settings.onData d e.parser (l ++ tail) e.user
      let e := { e with user := u }
      if r ≠ 0 then .stop (e.setErrno (.HPE_CB_data d)) adv
      else k { e with mark := Function.update e.mark d none }

/-- `++p`: the marks that are set now span the byte. -/
def advance (e : Exec σ) (ch : UInt8) : Exec σ :=
  { e with mark := fun d => (e.mark d).map (· ++ [ch]) }

end Exec

open Exec

variable (settings : Settings σ) (e : Exec σ) (ch : UInt8)

/-! ## Start lines -/

/-- `s_start_req`: what the first letter says of the method. -/
def methodOfFirst : Option Method :=
  if ch = 'A' then some .ACL
  else if ch = 'B' then some .BIND
  else if ch = 'C' then some .CONNECT
  else if ch = 'D' then some .DELETE
  else if ch = 'G' then some .GET
  else if ch = 'H' then some .HEAD
  else if ch = 'L' then some .LOCK
  else if ch = 'M' then some .MKCOL
  else if ch = 'N' then some .NOTIFY
  else if ch = 'O' then some .OPTIONS
  else if ch = 'P' then some .POST
  else if ch = 'R' then some .REPORT
  else if ch = 'S' then some .SUBSCRIBE
  else if ch = 'T' then some .TRACE
  else if ch = 'U' then some .UNLOCK
  else none

/-- The table of `s_req_method`: the method a letter at `pos` turns another one into. -/
def methodSwitch (m : Method) (pos : Nat) : Option Method :=
  match m, pos with
  | .POST, 1 =>
      if ch = 'U' then some .PUT
      else if ch = 'A' then some .PATCH
      else if ch = 'R' then some .PROPFIND
      else none
  | .PUT, 2 => if ch = 'R' then some .PURGE else none
  | .CONNECT, 1 => if ch = 'H' then some .CHECKOUT else none
  | .CONNECT, 2 => if ch = 'P' then some .COPY else none
  | .MKCOL, 1 =>
      if ch = 'O' then some .MOVE
      else if ch = 'E' then some .MERGE
      else if ch = '-' then some .MSEARCH
      else none
  | .MKCOL, 2 => if ch = 'A' then some .MKACTIVITY else none
  | .MKCOL, 3 => if ch = 'A' then some .MKCALENDAR else none
  | .SUBSCRIBE, 1 =>
      if ch = 'E' then some .SEARCH
      else if ch = 'O' then some .SOURCE
      else none
  | .REPORT, 2 => if ch = 'B' then some .REBIND else none
  | .PROPFIND, 4 => if ch = 'P' then some .PROPPATCH else none
  | .LOCK, 1 => if ch = 'I' then some .LINK else none
  | .UNLOCK, 2 =>
      if ch = 'S' then some .UNSUBSCRIBE
      else if ch = 'B' then some .UNBIND
      else none
  | .UNLOCK, 3 => if ch = 'I' then some .UNLINK else none
  | _, _ => none

/-- A new message: `flags` and `content_length` are reset. -/
def Exec.newMessage : Exec σ :=
  e.modify fun p => { p with flags := {}, content_length := ULLONG_MAX }

def startReq : Turn σ :=
  if ch = CR ∨ ch = LF then .next e
  else
    let e := e.newMessage
    if !isAlpha ch then e.fail .HPE_INVALID_METHOD
    else
      let e := e.modify fun p => { p with method := .DELETE, index := 1 }
      match methodOfFirst ch with
      | none => e.fail .HPE_INVALID_METHOD
      | some m =>
          let e := (e.modify fun p => { p with method := m }).goto .s_req_method
          e.callbackNotify settings .message_begin 1 .next

def startReqOrRes : Turn σ :=
  if ch = CR ∨ ch = LF then .next e
  else
    let e := e.newMessage
    if ch = 'H' then
      (e.goto .s_res_or_resp_H).callbackNotify settings .message_begin 1 .next
    else
      let e := (e.modify fun p => { p with type := .HTTP_REQUEST }).goto .s_start_req
      startReq settings e ch

def resOrRespH : Turn σ :=
  if ch = 'T' then
    .next ((e.modify fun p => { p with type := .HTTP_RESPONSE }).goto .s_res_HT)
  else if ch ≠ 'E' then e.fail .HPE_INVALID_CONSTANT
  else
    .next ((e.modify fun p => { p with type := .HTTP_REQUEST, method := .HEAD, index := 2 }).goto
      .s_req_method)

def startRes : Turn σ :=
  if ch = CR ∨ ch = LF then .next e
  else
    let e := e.newMessage
    if ch = 'H' then (e.goto .s_res_H).callbackNotify settings .message_begin 1 .next
    else e.fail .HPE_INVALID_CONSTANT

/-- The digit of a version, in `set`. -/
def versionDigit (set : Nat → Parser → Parser) (s : State) : Turn σ :=
  if !isNum ch then e.fail .HPE_INVALID_VERSION
  else .next ((e.modify (set (ch - '0').toNat)).goto s)

def resFirstStatusCode : Turn σ :=
  if !isNum ch then
    if ch = ' ' then .next e else e.fail .HPE_INVALID_STATUS
  else
    .next ((e.modify fun p => { p with status_code := (ch - '0').toNat }).goto .s_res_status_code)

def resStatus : Turn σ :=
  if ch = CR then (e.goto .s_res_line_almost_done).callbackData settings .status [] 1 .next
  else if ch = LF then (e.goto .s_header_field_start).callbackData settings .status [] 1 .next
  else .next e

def resStatusStart : Turn σ :=
  let e := ((e.setMark .status).goto .s_res_status).modify fun p => { p with index := 0 }
  if ch = CR ∨ ch = LF then resStatus settings e ch else .next e

def resStatusCode : Turn σ :=
  if !isNum ch then
    if ch = ' ' then .next (e.goto .s_res_status_start)
    else if ch = CR ∨ ch = LF then resStatusStart settings (e.goto .s_res_status_start) ch
    else e.fail .HPE_INVALID_STATUS
  else
    let e := e.modify fun p => { p with status_code := p.status_code * 10 + (ch - '0').toNat }
    if 999 < e.parser.status_code then e.fail .HPE_INVALID_STATUS else .next e

def reqMethod : Turn σ :=
  if ch = 0 then e.fail .HPE_INVALID_METHOD
  else
    let m := e.parser.method
    let c := (bytes m.string).getD e.parser.index 0
    let next := fun (e : Exec σ) => Turn.next (e.modify fun p => { p with index := p.index + 1 })
    if ch = ' ' ∧ c = 0 then next (e.goto .s_req_spaces_before_url)
    else if ch = c then next e
    else if ('A' ≤ ch ∧ ch ≤ 'Z') ∨ ch = '-' then
      match methodSwitch ch m e.parser.index with
      | none => e.fail .HPE_INVALID_METHOD
      | some m => next (e.modify fun p => { p with method := m })
    else e.fail .HPE_INVALID_METHOD

/-- `UPDATE_STATE(parse_url_char(CURRENT_STATE(), ch))` and the test after it. -/
def urlChar : Turn σ :=
  let s := parseUrlChar e.parser.state ch
  if s = .s_dead then (e.goto s).fail .HPE_INVALID_URL else .next (e.goto s)

def reqSpacesBeforeUrl : Turn σ :=
  if ch = ' ' then .next e
  else
    let e := e.setMark .url
    if e.parser.method = .CONNECT then urlChar (e.goto .s_req_server_start) ch
    else urlChar e ch

/-- `s_req_schema`, `s_req_schema_slash`, `s_req_schema_slash_slash`, `s_req_server_start`. -/
def reqSchema : Turn σ :=
  if ch = ' ' ∨ ch = CR ∨ ch = LF then e.fail .HPE_INVALID_URL else urlChar e ch

/-- `s_req_server` to `s_req_fragment`. -/
def reqUrl : Turn σ :=
  if ch = ' ' then (e.goto .s_req_http_start).callbackData settings .url [] 1 .next
  else if ch = CR ∨ ch = LF then
    let e := e.modify fun p => { p with http_major := 0, http_minor := 9 }
    let e := e.goto (if ch = CR then .s_req_line_almost_done else .s_header_field_start)
    e.callbackData settings .url [] 1 .next
  else urlChar e ch

def reqHttpStart : Turn σ :=
  if ch = ' ' then .next e
  else if ch = 'H' then .next (e.goto .s_req_http_H)
  else if ch = 'I' ∧ e.parser.method = .SOURCE then .next (e.goto .s_req_http_I)
  else e.fail .HPE_INVALID_CONSTANT

def reqHttpEnd : Turn σ :=
  if ch = CR then .next (e.goto .s_req_line_almost_done)
  else if ch = LF then .next (e.goto .s_header_field_start)
  else e.fail .HPE_INVALID_VERSION

/-! ## The end of a message -/

/-- `UPDATE_STATE(NEW_MESSAGE()); CALLBACK_NOTIFY(message_complete)`. -/
def messageComplete (k : Exec σ → Turn σ) : Turn σ :=
  (e.goto e.parser.newMessage).callbackNotify settings .message_complete 1 k

def messageDone : Turn σ :=
  messageComplete settings e fun e => if e.parser.upgrade then .stop e 1 else .next e

def headersDone : Turn σ :=
  e.strictCheck (ch ≠ LF) <|
    let e := e.modify fun p => { p with nread := 0 }
    let p := e.parser
    let hasBody := p.flags.F_CHUNKED || (0 < p.content_length && p.content_length ≠ ULLONG_MAX)
    if p.upgrade && (p.method = .CONNECT || p.flags.F_SKIPBODY || !hasBody) then
      messageComplete settings e fun e => .stop e 1
    else if p.flags.F_SKIPBODY then messageComplete settings e .next
    else if p.flags.F_CHUNKED then .next (e.goto .s_chunk_size_start)
    else if p.content_length = 0 then messageComplete settings e .next
    else if p.content_length ≠ ULLONG_MAX then .next (e.goto .s_body_identity)
    else if !p.messageNeedsEof then messageComplete settings e .next
    else .next (e.goto .s_body_identity_eof)

/-- `parser->upgrade` as it is set before `on_headers_complete`. -/
def Parser.upgrades (p : Parser) : Bool :=
  if p.flags.F_UPGRADE && p.flags.F_CONNECTION_UPGRADE then
    p.type = .HTTP_REQUEST || p.status_code = 101
  else p.method = .CONNECT

/-- The call of `on_headers_complete`: 1 and 2 ask to skip the body, 2 announces an upgrade. -/
def headersComplete (k : Exec σ → Turn σ) : Turn σ :=
  let (u, r) := settings.onNotify .headers_complete e.parser e.user
  let e := { e with user := u }
  let skip := fun (p : Parser) => { p with flags := { p.flags with F_SKIPBODY := true } }
  if r = 0 then k e
  else if r = 2 then k ((e.modify fun p => { p with upgrade := true }).modify skip)
  else if r = 1 then k (e.modify skip)
  else e.fail (.HPE_CB_notify .headers_complete)

def headersAlmostDone : Turn σ :=
  e.strictCheck (ch ≠ LF) <|
    if e.parser.flags.F_TRAILING then
      (e.goto .s_message_done).callbackNotify settings .chunk_complete 0 (messageDone settings)
    else if e.parser.flags.F_CHUNKED && e.parser.flags.F_CONTENTLENGTH then
      e.fail .HPE_UNEXPECTED_CONTENT_LENGTH
    else
      let e := (e.goto .s_headers_done).modify fun p => { p with upgrade := p.upgrades }
      headersComplete settings e fun e => headersDone settings e ch

/-! ## Header lines -/

def headerFieldStart : Turn σ :=
  if ch = CR then .next (e.goto .s_headers_almost_done)
  else if ch = LF then headersAlmostDone settings (e.goto .s_headers_almost_done) ch
  else
    let c := token ch
    if c = 0 then e.fail .HPE_INVALID_HEADER_TOKEN
    else
      let h : HeaderState :=
        if c = 'c' then .h_C
        else if c = 'p' then .h_matching_proxy_connection
        else if c = 't' then .h_matching_transfer_encoding
        else if c = 'u' then .h_matching_upgrade
        else .h_general
      .next (((e.setMark .header_field).goto .s_header_field).modify fun p =>
        { p with index := 0, header_state := h })

/-- One letter `c` of the word `w` after the letter at `index`: `own` as long as it matches,
`full` at the last letter, `other` when it does not. `w` is a C string, so that the letter
after its last one is 0. -/
def matchWord (w : String) (c : UInt8) (own full other : HeaderState) (p : Parser) : Parser :=
  let i := p.index + 1
  let p := { p with index := i }
  if (bytes w).length < i ∨ c ≠ (bytes w).getD i 0 then { p with header_state := other }
  else if i = (bytes w).length - 1 then { p with header_state := full }
  else { p with header_state := own }

/-- What `s_header_field` does with a token character; `c` is `token ch`. -/
def fieldChar (ch c : UInt8) (p : Parser) : Parser :=
  let next := fun (h : HeaderState) => { p with index := p.index + 1, header_state := h }
  match p.header_state with
  | .h_C => next (if c = 'o' then .h_CO else .h_general)
  | .h_CO => next (if c = 'n' then .h_CON else .h_general)
  | .h_CON =>
      next (if c = 'n' then .h_matching_connection
        else if c = 't' then .h_matching_content_length
        else .h_general)
  | .h_matching_connection =>
      matchWord "connection" c .h_matching_connection .h_connection .h_general p
  | .h_matching_proxy_connection =>
      matchWord "proxy-connection" c .h_matching_proxy_connection .h_connection .h_general p
  | .h_matching_content_length =>
      matchWord "content-length" c .h_matching_content_length .h_content_length .h_general p
  | .h_matching_transfer_encoding =>
      matchWord "transfer-encoding" c .h_matching_transfer_encoding .h_transfer_encoding
        .h_general p
  | .h_matching_upgrade => matchWord "upgrade" c .h_matching_upgrade .h_upgrade .h_general p
  | .h_connection | .h_content_length | .h_transfer_encoding | .h_upgrade =>
      if ch ≠ ' ' then { p with header_state := .h_general } else p
  | _ => p

def headerField : Turn σ :=
  let c := token ch
  let k := e.scan.getD 0
  if c ≠ 0 then .next { e.modify (fieldChar ch c) with scan := some k }
  else
    { e with scan := none }.countHeaderSize k fun e =>
      if ch = ':' then
        (e.goto .s_header_value_discard_ws).callbackData settings .header_field [] 1 .next
      else e.fail .HPE_INVALID_HEADER_TOKEN

def headerValueStart : Turn σ :=
  let e := ((e.setMark .header_value).goto .s_header_value).modify fun p => { p with index := 0 }
  let c := lower ch
  let enter := fun (h : HeaderState) => Turn.next (e.modify fun p => { p with header_state := h })
  match e.parser.header_state with
  | .h_upgrade =>
      .next (e.modify fun p =>
        { p with flags := { p.flags with F_UPGRADE := true }, header_state := .h_general })
  | .h_transfer_encoding =>
      enter (if c = 'c' then .h_matching_transfer_encoding_chunked else .h_general)
  | .h_content_length =>
      if !isNum ch then e.fail .HPE_INVALID_CONTENT_LENGTH
      else if e.parser.flags.F_CONTENTLENGTH then e.fail .HPE_UNEXPECTED_CONTENT_LENGTH
      else
        .next (e.modify fun p =>
          { p with
            flags := { p.flags with F_CONTENTLENGTH := true }
            content_length := (ch - '0').toNat
            header_state := .h_content_length_num })
  | .h_content_length_ws => .next e
  | .h_connection =>
      enter (if c = 'k' then .h_matching_connection_keep_alive
        else if c = 'c' then .h_matching_connection_close
        else if c = 'u' then .h_matching_connection_upgrade
        else .h_matching_connection_token)
  | .h_matching_connection_token_start => .next e
  | _ => enter .h_general

def headerValueDiscardWs : Turn σ :=
  if ch = ' ' ∨ ch = 9 then .next e
  else if ch = CR then .next (e.goto .s_header_value_discard_ws_almost_done)
  else if ch = LF then .next (e.goto .s_header_value_discard_lws)
  else headerValueStart e ch

def headerAlmostDone : Turn σ :=
  if ch ≠ LF then e.fail .HPE_LF_EXPECTED else .next (e.goto .s_header_value_lws)

/-- The digits of a `Content-Length`. -/
def contentLengthNum (p : Parser) : Except HttpErrno Parser :=
  if ch = ' ' then .ok { p with header_state := .h_content_length_ws }
  else if !isNum ch then .error .HPE_INVALID_CONTENT_LENGTH
  else if (ULLONG_MAX - 10) / 10 < p.content_length then .error .HPE_INVALID_CONTENT_LENGTH
  else
    .ok { p with
      content_length := p.content_length * 10 + (ch - '0').toNat
      header_state := .h_content_length_num }

/-- What `s_header_value` does with a character of the value; `c` is `lower ch`. -/
def valueChar (ch c : UInt8) (p : Parser) : Except HttpErrno Parser :=
  let enter := fun (h : HeaderState) => { p with header_state := h }
  match p.header_state with
  | .h_general => .ok p
  -- asserted away in the source, which goes on when assertions are off
  | .h_connection | .h_transfer_encoding => .ok p
  | .h_content_length => if ch = ' ' then .ok p else contentLengthNum ch p
  | .h_content_length_num => contentLengthNum ch p
  | .h_content_length_ws => if ch = ' ' then .ok p else .error .HPE_INVALID_CONTENT_LENGTH
  | .h_matching_transfer_encoding_chunked =>
      .ok (matchWord "chunked" c .h_matching_transfer_encoding_chunked
        .h_transfer_encoding_chunked .h_general p)
  | .h_matching_connection_token_start =>
      .ok (if c = 'k' then enter .h_matching_connection_keep_alive
        else if c = 'c' then enter .h_matching_connection_close
        else if c = 'u' then enter .h_matching_connection_upgrade
        else if token c ≠ 0 then enter .h_matching_connection_token
        else if c = ' ' ∨ c = 9 then p
        else enter .h_general)
  | .h_matching_connection_keep_alive =>
      .ok (matchWord "keep-alive" c .h_matching_connection_keep_alive .h_connection_keep_alive
        .h_matching_connection_token p)
  | .h_matching_connection_close =>
      .ok (matchWord "close" c .h_matching_connection_close .h_connection_close
        .h_matching_connection_token p)
  | .h_matching_connection_upgrade =>
      .ok (matchWord "upgrade" c .h_matching_connection_upgrade .h_connection_upgrade
        .h_matching_connection_token p)
  | .h_matching_connection_token =>
      .ok (if ch = ',' then { enter .h_matching_connection_token_start with index := 0 } else p)
  | .h_transfer_encoding_chunked => .ok (if ch ≠ ' ' then enter .h_general else p)
  | .h_connection_keep_alive =>
      .ok (nextToken { p.flags with F_CONNECTION_KEEP_ALIVE := true })
  | .h_connection_close => .ok (nextToken { p.flags with F_CONNECTION_CLOSE := true })
  | .h_connection_upgrade => .ok (nextToken { p.flags with F_CONNECTION_UPGRADE := true })
  | _ => .ok (enter .h_general)
where
  /-- a token of `Connection` has been read up to its end, or goes on -/
  nextToken (flags : Flags) : Parser :=
    if ch = ',' then
      { p with flags, header_state := .h_matching_connection_token_start, index := 0 }
    else if ch ≠ ' ' then { p with header_state := .h_matching_connection_token }
    else p

def headerValue : Turn σ :=
  let k := e.scan.getD 0
  let e := { e with scan := none }
  if ch = CR then
    (e.goto .s_header_almost_done).callbackData settings .header_value [] 1 fun e =>
      e.countHeaderSize k .next
  else if ch = LF then
    (e.goto .s_header_almost_done).countHeaderSize k fun e =>
      e.callbackData settings .header_value [] 0 fun e => headerAlmostDone e ch
  else if !e.parser.lenient_http_headers && !isHeaderChar ch then
    e.fail .HPE_INVALID_HEADER_TOKEN
  else
    match valueChar ch (lower ch) e.parser with
    | .error err => e.fail err
    | .ok p => .next { e with parser := p, scan := some k }

/-- The flags a finished header leaves behind. -/
def Parser.finishHeader (p : Parser) : Parser :=
  match p.header_state with
  | .h_connection_keep_alive =>
      { p with flags := { p.flags with F_CONNECTION_KEEP_ALIVE := true } }
  | .h_connection_close => { p with flags := { p.flags with F_CONNECTION_CLOSE := true } }
  | .h_transfer_encoding_chunked => { p with flags := { p.flags with F_CHUNKED := true } }
  | .h_connection_upgrade => { p with flags := { p.flags with F_CONNECTION_UPGRADE := true } }
  | _ => p

def headerValueLws : Turn σ :=
  if ch = ' ' ∨ ch = 9 then
    if e.parser.header_state = .h_content_length_num then
      let e := e.modify fun p => { p with header_state := .h_content_length_ws }
      headerValueStart (e.goto .s_header_value_start) ch
    else headerValueStart (e.goto .s_header_value_start) ch
  else
    headerFieldStart settings ((e.modify Parser.finishHeader).goto .s_header_field_start) ch

def headerValueDiscardLws : Turn σ :=
  if ch = ' ' ∨ ch = 9 then .next (e.goto .s_header_value_discard_ws)
  else if e.parser.header_state = .h_content_length then e.fail .HPE_INVALID_CONTENT_LENGTH
  else
    let e := ((e.modify Parser.finishHeader).setMark .header_value).goto .s_header_field_start
    e.callbackData settings .header_value [] 0 fun e => headerFieldStart settings e ch

/-! ## Bodies -/

def bodyIdentity : Turn σ :=
  let e := (e.setMark .body).modify fun p => { p with content_length := p.content_length - 1 }
  if e.parser.content_length = 0 then
    (e.goto .s_message_done).callbackData settings .body [ch] 0 (messageDone settings)
  else .next e

def chunkSizeStart : Turn σ :=
  match unhex ch with
  | none => e.fail .HPE_INVALID_CHUNK_SIZE
  | some v => .next ((e.modify fun p => { p with content_length := v }).goto .s_chunk_size)

def chunkSize : Turn σ :=
  if ch = CR then .next (e.goto .s_chunk_size_almost_done)
  else
    match unhex ch with
    | none =>
        if ch = ';' ∨ ch = ' ' then .next (e.goto .s_chunk_parameters)
        else e.fail .HPE_INVALID_CHUNK_SIZE
    | some v =>
        if (ULLONG_MAX - 16) / 16 < e.parser.content_length then
          e.fail .HPE_INVALID_CONTENT_LENGTH
        else .next (e.modify fun p => { p with content_length := p.content_length * 16 + v })

def chunkSizeAlmostDone : Turn σ :=
  e.strictCheck (ch ≠ LF) <|
    let e := e.modify fun p => { p with nread := 0 }
    if e.parser.content_length = 0 then
      let e := e.modify fun p => { p with flags := { p.flags with F_TRAILING := true } }
      (e.goto .s_header_field_start).callbackNotify settings .chunk_header 1 .next
    else (e.goto .s_chunk_data).callbackNotify settings .chunk_header 1 .next

def chunkData : Turn σ :=
  let e := (e.setMark .body).modify fun p => { p with content_length := p.content_length - 1 }
  if e.parser.content_length = 0 then .next (e.goto .s_chunk_data_almost_done) else .next e

def chunkDataAlmostDone : Turn σ :=
  e.strictCheck (ch ≠ CR) <|
    (e.goto .s_chunk_data_done).callbackData settings .body [] 1 .next

def chunkDataDone : Turn σ :=
  e.strictCheck (ch ≠ LF) <|
    let e := (e.modify fun p => { p with nread := 0 }).goto .s_chunk_size_start
    e.callbackNotify settings .chunk_complete 1 .next

/-! ## The loop -/

/-- `STRICT_CHECK(ch != c); UPDATE_STATE(s)`. -/
def expect (c : UInt8) (s : State) : Turn σ := e.strictCheck (ch ≠ c) (.next (e.goto s))

/-- The `switch` over `CURRENT_STATE()`. -/
def switch : Turn σ :=
  match e.parser.state with
  | .s_dead => if ch = CR ∨ ch = LF then .next e else e.fail .HPE_CLOSED_CONNECTION
  | .s_start_req_or_res => startReqOrRes settings e ch
  | .s_res_or_resp_H => resOrRespH e ch
  | .s_start_res => startRes settings e ch
  | .s_res_H => expect e ch 'T' .s_res_HT
  | .s_res_HT => expect e ch 'T' .s_res_HTT
  | .s_res_HTT => expect e ch 'P' .s_res_HTTP
  | .s_res_HTTP => expect e ch '/' .s_res_http_major
  | .s_res_http_major => versionDigit e ch (fun v p => { p with http_major := v }) .s_res_http_dot
  | .s_res_http_dot =>
      if ch ≠ '.' then e.fail .HPE_INVALID_VERSION else .next (e.goto .s_res_http_minor)
  | .s_res_http_minor => versionDigit e ch (fun v p => { p with http_minor := v }) .s_res_http_end
  | .s_res_http_end =>
      if ch ≠ ' ' then e.fail .HPE_INVALID_VERSION else .next (e.goto .s_res_first_status_code)
  | .s_res_first_status_code => resFirstStatusCode e ch
  | .s_res_status_code => resStatusCode settings e ch
  | .s_res_status_start => resStatusStart settings e ch
  | .s_res_status => resStatus settings e ch
  | .s_res_line_almost_done => expect e ch LF .s_header_field_start
  | .s_start_req => startReq settings e ch
  | .s_req_method => reqMethod e ch
  | .s_req_spaces_before_url => reqSpacesBeforeUrl e ch
  | .s_req_schema | .s_req_schema_slash | .s_req_schema_slash_slash | .s_req_server_start =>
      reqSchema e ch
  | .s_req_server | .s_req_server_with_at | .s_req_path | .s_req_query_string_start
  | .s_req_query_string | .s_req_fragment_start | .s_req_fragment => reqUrl settings e ch
  | .s_req_http_start => reqHttpStart e ch
  | .s_req_http_H => expect e ch 'T' .s_req_http_HT
  | .s_req_http_HT => expect e ch 'T' .s_req_http_HTT
  | .s_req_http_HTT => expect e ch 'P' .s_req_http_HTTP
  | .s_req_http_I => expect e ch 'C' .s_req_http_IC
  | .s_req_http_IC => expect e ch 'E' .s_req_http_HTTP
  | .s_req_http_HTTP => expect e ch '/' .s_req_http_major
  | .s_req_http_major => versionDigit e ch (fun v p => { p with http_major := v }) .s_req_http_dot
  | .s_req_http_dot =>
      if ch ≠ '.' then e.fail .HPE_INVALID_VERSION else .next (e.goto .s_req_http_minor)
  | .s_req_http_minor => versionDigit e ch (fun v p => { p with http_minor := v }) .s_req_http_end
  | .s_req_http_end => reqHttpEnd e ch
  | .s_req_line_almost_done =>
      if ch ≠ LF then e.fail .HPE_LF_EXPECTED else .next (e.goto .s_header_field_start)
  | .s_header_field_start => headerFieldStart settings e ch
  | .s_header_field => headerField settings e ch
  | .s_header_value_discard_ws => headerValueDiscardWs e ch
  | .s_header_value_start => headerValueStart e ch
  | .s_header_value => headerValue settings e ch
  | .s_header_almost_done => headerAlmostDone e ch
  | .s_header_value_lws => headerValueLws settings e ch
  | .s_header_value_discard_ws_almost_done => expect e ch LF .s_header_value_discard_lws
  | .s_header_value_discard_lws => headerValueDiscardLws settings e ch
  | .s_headers_almost_done => headersAlmostDone settings e ch
  | .s_headers_done => headersDone settings e ch
  | .s_body_identity => bodyIdentity settings e ch
  | .s_body_identity_eof => .next (e.setMark .body)
  | .s_message_done => messageDone settings e
  | .s_chunk_size_start => chunkSizeStart e ch
  | .s_chunk_size => chunkSize e ch
  | .s_chunk_parameters => if ch = CR then .next (e.goto .s_chunk_size_almost_done) else .next e
  | .s_chunk_size_almost_done => chunkSizeAlmostDone settings e ch
  | .s_chunk_data => chunkData e
  | .s_chunk_data_almost_done => chunkDataAlmostDone settings e ch
  | .s_chunk_data_done => chunkDataDone settings e ch

/-- One round of the `for` loop, or of the loop inside a header case. -/
def turn : Turn σ :=
  match e.scan with
  | some k => switch settings { e with scan := some (k + 1) } ch
  | none =>
      if e.parser.state.parsingHeader then e.countHeaderSize 1 fun e => switch settings e ch
      else switch settings e ch

/-- What a call leaves: the parser, the embedder's object and the number of bytes parsed. -/
structure Result (σ : Type) where
  parser : Parser
  user : σ
  nparsed : Nat
  deriving DecidableEq

/-- After `pos` bytes. -/
def Turn.result (pos : Nat) : Turn σ → Result σ
  | .next e => ⟨e.parser, e.user, pos⟩
  | .stop e n => ⟨e.parser, e.user, pos + n⟩

/-- `CALLBACK_DATA_NOADVANCE` for the marks that are left over. -/
def flush : Turn σ :=
  e.callbackData settings .header_field [] 0 fun e =>
  e.callbackData settings .header_value [] 0 fun e =>
  e.callbackData settings .url [] 0 fun e =>
  e.callbackData settings .body [] 0 fun e =>
  e.callbackData settings .status [] 0 .next

/-- The end of the buffer, `pos` bytes after its start. -/
def endOfData (pos : Nat) : Result σ :=
  match e.scan with
  | none => (flush settings e).result pos
  | some k =>
      -- the loop of the header case ends with `p` on the last byte
      match { e with scan := none }.countHeaderSize k .next with
      | .stop e n => ⟨e.parser, e.user, pos - 1 + n⟩
      | .next e => (flush settings e).result pos

/-- The loop over the rest of the buffer. -/
def run (e : Exec σ) (pos : Nat) : List UInt8 → Result σ
  | [] => endOfData settings e pos
  | ch :: rest =>
      match turn settings e ch with
      | .stop e n => ⟨e.parser, e.user, pos + n⟩
      | .next e => run (e.advance ch) (pos + 1) rest

/-- The element a call finds itself inside at its start; the body has no mark then. -/
def State.element : State → Option Data
  | .s_header_field => some .header_field
  | .s_header_value => some .header_value
  | .s_req_path | .s_req_schema | .s_req_schema_slash | .s_req_schema_slash_slash
  | .s_req_server_start | .s_req_server | .s_req_server_with_at | .s_req_query_string_start
  | .s_req_query_string | .s_req_fragment_start | .s_req_fragment => some .url
  | .s_res_status => some .status
  | _ => none

/-- The locals at the start of a call. -/
def Exec.start (p : Parser) (u : σ) : Exec σ where
  parser := p
  user := u
  mark := fun d => if p.state.element = some d then some [] else none
  scan := none

/-- `http_parser_execute` with `len == 0`: the end of the stream. -/
def executeEof (p : Parser) (u : σ) : Result σ :=
  match p.state with
  | .s_body_identity_eof =>
      ((Exec.start p u).callbackNotify settings .message_complete 0 .next).result 0
  | .s_dead | .s_start_req_or_res | .s_start_res | .s_start_req => ⟨p, u, 0⟩
  | _ => ⟨{ p with http_errno := .HPE_INVALID_EOF_STATE }, u, 1⟩

/-- `http_parser_execute`. -/
def execute (p : Parser) (u : σ) (data : List UInt8) : Result σ :=
  if p.http_errno ≠ .HPE_OK then ⟨p, u, 0⟩
  else if data = [] then executeEof settings p u
  else run settings (.start p u) 0 data

end Gxh.HttpParser
