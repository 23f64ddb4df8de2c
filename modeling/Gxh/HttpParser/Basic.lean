import Mathlib.Algebra.Group.Nat.Defs
import Mathlib.Data.List.Basic
import Mathlib.Logic.Function.Basic

/-!
# The bundled `http_parser`: data

The enumerations, character classes and the parser record of `http-parser/http_parser.c` and
`http_parser.h`, compiled as shipped: `HTTP_PARSER_STRICT` is 1.

* A `char` is its byte, a `UInt8`. The tables `tokens`, `unhex` and `normal_url_char` are given
  by the ranges they spell out; entries past 127 are the zeros C fills in.
* `flags` is a bit field of the source, a record of Booleans here.
-/

namespace Gxh.HttpParser

instance charToByte : Coe Char UInt8 := ⟨Char.toUInt8⟩

/-- The bytes of a text in ASCII. -/
def bytes (s : String) : List UInt8 := s.toList.map Char.toUInt8

def CR : UInt8 := '\r'
def LF : UInt8 := '\n'

def lower (c : UInt8) : UInt8 := c ||| 0x20
def isAlpha (c : UInt8) : Bool := 'a' ≤ lower c && lower c ≤ 'z'
def isNum (c : UInt8) : Bool := '0' ≤ c && c ≤ '9'
def isAlphanum (c : UInt8) : Bool := isAlpha c || isNum c
def isHex (c : UInt8) : Bool := isNum c || ('a' ≤ lower c && lower c ≤ 'f')

/-- `IS_MARK`; 39 is the apostrophe. -/
def isMark (c : UInt8) : Bool :=
  c = '-' || c = '_' || c = '.' || c = '!' || c = '~' || c = '*' || c = 39 || c = '(' || c = ')'

def isUserinfoChar (c : UInt8) : Bool :=
  isAlphanum c || isMark c || c = '%' || c = ';' || c = ':' || c = '&' || c = '=' || c = '+' ||
    c = '$' || c = ','

/-- `STRICT_TOKEN`: the letter in lower case, or 0 outside `token`. 39, 96 are the two quotes. -/
def token (c : UInt8) : UInt8 :=
  if 'A' ≤ c ∧ c ≤ 'Z' then lower c
  else if isAlphanum c || c = '!' || c = '#' || c = '$' || c = '%' || c = '&' || c = 39 ||
      c = '*' || c = '+' || c = '-' || c = '.' || c = '^' || c = '_' || c = 96 || c = '|' ||
      c = '~' then c
  else 0

/-- `unhex`: bytes past 127 are in the part of the table left to zero. -/
def unhex (c : UInt8) : Option Nat :=
  if isNum c then some (c - '0').toNat
  else if 'a' ≤ lower c ∧ lower c ≤ 'f' then some (lower c - 'a' + 10).toNat
  else if 128 ≤ c then some 0
  else none

def isUrlChar (c : UInt8) : Bool := '!' ≤ c && c ≤ '~' && c ≠ '#' && c ≠ '?'
def isHostChar (c : UInt8) : Bool := isAlphanum c || c = '.' || c = '-'
def isBlank (c : UInt8) : Bool := c = ' ' || c = 9
def isHeaderChar (c : UInt8) : Bool := c = CR || c = LF || c = 9 || (31 < c && c ≠ 127)

/-- `enum http_parser_type`. -/
inductive ParserType
  | HTTP_REQUEST
  | HTTP_RESPONSE
  | HTTP_BOTH
  deriving DecidableEq, Repr

/-- `enum state`. -/
inductive State
  | s_dead
  | s_start_req_or_res
  | s_res_or_resp_H
  | s_start_res
  | s_res_H
  | s_res_HT
  | s_res_HTT
  | s_res_HTTP
  | s_res_http_major
  | s_res_http_dot
  | s_res_http_minor
  | s_res_http_end
  | s_res_first_status_code
  | s_res_status_code
  | s_res_status_start
  | s_res_status
  | s_res_line_almost_done
  | s_start_req
  | s_req_method
  | s_req_spaces_before_url
  | s_req_schema
  | s_req_schema_slash
  | s_req_schema_slash_slash
  | s_req_server_start
  | s_req_server
  | s_req_server_with_at
  | s_req_path
  | s_req_query_string_start
  | s_req_query_string
  | s_req_fragment_start
  | s_req_fragment
  | s_req_http_start
  | s_req_http_H
  | s_req_http_HT
  | s_req_http_HTT
  | s_req_http_HTTP
  | s_req_http_I
  | s_req_http_IC
  | s_req_http_major
  | s_req_http_dot
  | s_req_http_minor
  | s_req_http_end
  | s_req_line_almost_done
  | s_header_field_start
  | s_header_field
  | s_header_value_discard_ws
  | s_header_value_discard_ws_almost_done
  | s_header_value_discard_lws
  | s_header_value_start
  | s_header_value
  | s_header_value_lws
  | s_header_almost_done
  | s_chunk_size_start
  | s_chunk_size
  | s_chunk_parameters
  | s_chunk_size_almost_done
  | s_headers_almost_done
  | s_headers_done
  | s_chunk_data
  | s_chunk_data_almost_done
  | s_chunk_data_done
  | s_body_identity
  | s_body_identity_eof
  | s_message_done
  deriving DecidableEq, Repr

/-- `PARSING_HEADER`: the states up to `s_headers_done`. -/
def State.parsingHeader : State → Bool
  | .s_chunk_data | .s_chunk_data_almost_done | .s_chunk_data_done | .s_body_identity
  | .s_body_identity_eof | .s_message_done => false
  | _ => true

/-- `enum header_states`. -/
inductive HeaderState
  | h_general
  | h_C
  | h_CO
  | h_CON
  | h_matching_connection
  | h_matching_proxy_connection
  | h_matching_content_length
  | h_matching_transfer_encoding
  | h_matching_upgrade
  | h_connection
  | h_content_length
  | h_content_length_num
  | h_content_length_ws
  | h_transfer_encoding
  | h_upgrade
  | h_matching_transfer_encoding_chunked
  | h_matching_connection_token_start
  | h_matching_connection_keep_alive
  | h_matching_connection_close
  | h_matching_connection_upgrade
  | h_matching_connection_token
  | h_transfer_encoding_chunked
  | h_connection_keep_alive
  | h_connection_close
  | h_connection_upgrade
  deriving DecidableEq, Repr

/-- `HTTP_METHOD_MAP`. -/
inductive Method
  | DELETE | GET | HEAD | POST | PUT | CONNECT | OPTIONS | TRACE
  | COPY | LOCK | MKCOL | MOVE | PROPFIND | PROPPATCH | SEARCH | UNLOCK
  | BIND | REBIND | UNBIND | ACL | REPORT | MKACTIVITY | CHECKOUT | MERGE
  | MSEARCH | NOTIFY | SUBSCRIBE | UNSUBSCRIBE | PATCH | PURGE | MKCALENDAR
  | LINK | UNLINK | SOURCE
  deriving DecidableEq, Repr

/-- `method_strings`. -/
def Method.string : Method → String
  | .DELETE => "DELETE"
  | .GET => "GET"
  | .HEAD => "HEAD"
  | .POST => "POST"
  | .PUT => "PUT"
  | .CONNECT => "CONNECT"
  | .OPTIONS => "OPTIONS"
  | .TRACE => "TRACE"
  | .COPY => "COPY"
  | .LOCK => "LOCK"
  | .MKCOL => "MKCOL"
  | .MOVE => "MOVE"
  | .PROPFIND => "PROPFIND"
  | .PROPPATCH => "PROPPATCH"
  | .SEARCH => "SEARCH"
  | .UNLOCK => "UNLOCK"
  | .BIND => "BIND"
  | .REBIND => "REBIND"
  | .UNBIND => "UNBIND"
  | .ACL => "ACL"
  | .REPORT => "REPORT"
  | .MKACTIVITY => "MKACTIVITY"
  | .CHECKOUT => "CHECKOUT"
  | .MERGE => "MERGE"
  | .MSEARCH => "M-SEARCH"
  | .NOTIFY => "NOTIFY"
  | .SUBSCRIBE => "SUBSCRIBE"
  | .UNSUBSCRIBE => "UNSUBSCRIBE"
  | .PATCH => "PATCH"
  | .PURGE => "PURGE"
  | .MKCALENDAR => "MKCALENDAR"
  | .LINK => "LINK"
  | .UNLINK => "UNLINK"
  | .SOURCE => "SOURCE"

/-- What a data callback reports, and what the source keeps a mark for. -/
inductive Data
  | header_field
  | header_value
  | url
  | body
  | status
  deriving DecidableEq, Repr

/-- What a notify callback reports. -/
inductive Notice
  | message_begin
  | headers_complete
  | message_complete
  | chunk_header
  | chunk_complete
  deriving DecidableEq, Repr

/-- `enum http_errno`. -/
inductive HttpErrno
  | HPE_OK
  /-- `HPE_CB_url` and the like -/
  | HPE_CB_data (d : Data)
  /-- `HPE_CB_message_begin` and the like -/
  | HPE_CB_notify (n : Notice)
  | HPE_INVALID_EOF_STATE
  | HPE_HEADER_OVERFLOW
  | HPE_CLOSED_CONNECTION
  | HPE_INVALID_VERSION
  | HPE_INVALID_STATUS
  | HPE_INVALID_METHOD
  | HPE_INVALID_URL
  | HPE_LF_EXPECTED
  | HPE_INVALID_HEADER_TOKEN
  | HPE_INVALID_CONTENT_LENGTH
  | HPE_UNEXPECTED_CONTENT_LENGTH
  | HPE_INVALID_CHUNK_SIZE
  | HPE_INVALID_CONSTANT
  | HPE_STRICT
  | HPE_UNKNOWN
  deriving DecidableEq, Repr

/-- `enum flags`. -/
structure Flags where
  F_CHUNKED : Bool := false
  F_CONNECTION_KEEP_ALIVE : Bool := false
  F_CONNECTION_CLOSE : Bool := false
  F_CONNECTION_UPGRADE : Bool := false
  F_TRAILING : Bool := false
  F_UPGRADE : Bool := false
  F_SKIPBODY : Bool := false
  F_CONTENTLENGTH : Bool := false
  deriving DecidableEq, Repr

def ULLONG_MAX : Nat := 2 ^ 64 - 1

/-- `HTTP_MAX_HEADER_SIZE`. -/
def maxHeaderSize : Nat := 80 * 1024

/-- `struct http_parser`, without `data`. -/
structure Parser where
  type : ParserType
  flags : Flags := {}
  state : State
  header_state : HeaderState := .h_general
  index : Nat := 0
  lenient_http_headers : Bool := false
  nread : Nat := 0
  content_length : Nat := 0
  http_major : Nat := 0
  http_minor : Nat := 0
  status_code : Nat := 0
  method : Method := .DELETE
  http_errno : HttpErrno := .HPE_OK
  upgrade : Bool := false
  deriving DecidableEq, Repr

/-- `http_parser_init`: all fields zero, which is `DELETE` for the method. -/
def Parser.init : ParserType → Parser
  | .HTTP_REQUEST => { type := .HTTP_REQUEST, state := .s_start_req }
  | .HTTP_RESPONSE => { type := .HTTP_RESPONSE, state := .s_start_res }
  | .HTTP_BOTH => { type := .HTTP_BOTH, state := .s_start_req_or_res }

/-- `http_message_needs_eof`. -/
def Parser.messageNeedsEof (p : Parser) : Bool :=
  if p.type = .HTTP_REQUEST then false
  else if p.status_code / 100 = 1 ∨ p.status_code = 204 ∨ p.status_code = 304 ∨
      p.flags.F_SKIPBODY then false
  else if p.flags.F_CHUNKED ∨ p.content_length ≠ ULLONG_MAX then false
  else true

/-- `http_should_keep_alive`. -/
def Parser.shouldKeepAlive (p : Parser) : Bool :=
  if 0 < p.http_major ∧ 0 < p.http_minor then
    if p.flags.F_CONNECTION_CLOSE then false else !p.messageNeedsEof
  else if p.flags.F_CONNECTION_KEEP_ALIVE then !p.messageNeedsEof
  else false

/-- `NEW_MESSAGE()`. -/
def Parser.newMessage (p : Parser) : State :=
  if p.shouldKeepAlive then
    if p.type = .HTTP_REQUEST then .s_start_req else .s_start_res
  else .s_dead

/-- `parse_url_char`: the part of the automaton shared with `http_parser_parse_url`. -/
def parseUrlChar (s : State) (ch : UInt8) : State :=
  if ch = ' ' ∨ ch = CR ∨ ch = LF ∨ ch = 9 ∨ ch = 12 then .s_dead
  else
    match s with
    | .s_req_spaces_before_url =>
        if ch = '/' ∨ ch = '*' then .s_req_path
        else if isAlpha ch then .s_req_schema
        else .s_dead
    | .s_req_schema =>
        if isAlpha ch then .s_req_schema
        else if ch = ':' then .s_req_schema_slash
        else .s_dead
    | .s_req_schema_slash => if ch = '/' then .s_req_schema_slash_slash else .s_dead
    | .s_req_schema_slash_slash => if ch = '/' then .s_req_server_start else .s_dead
    | .s_req_server_with_at => if ch = '@' then .s_dead else serverChar ch
    | .s_req_server_start | .s_req_server => serverChar ch
    | .s_req_path =>
        if isUrlChar ch then .s_req_path
        else if ch = '?' then .s_req_query_string_start
        else if ch = '#' then .s_req_fragment_start
        else .s_dead
    | .s_req_query_string_start | .s_req_query_string =>
        if isUrlChar ch then .s_req_query_string
        else if ch = '?' then .s_req_query_string
        else if ch = '#' then .s_req_fragment_start
        else .s_dead
    | .s_req_fragment_start =>
        if isUrlChar ch then .s_req_fragment
        else if ch = '?' then .s_req_fragment
        else if ch = '#' then .s_req_fragment_start
        else .s_dead
    | .s_req_fragment =>
        if isUrlChar ch then .s_req_fragment
        else if ch = '?' ∨ ch = '#' then .s_req_fragment
        else .s_dead
    | _ => .s_dead
where
  /-- what `s_req_server_with_at` falls through to -/
  serverChar (ch : UInt8) : State :=
    if ch = '/' then .s_req_path
    else if ch = '?' then .s_req_query_string_start
    else if ch = '@' then .s_req_server_with_at
    else if isUserinfoChar ch || ch = '[' || ch = ']' then .s_req_server
    else .s_dead

end Gxh.HttpParser
