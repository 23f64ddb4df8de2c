import Gxh.HttpParser.Basic

/-!
# The bundled `http_parser`: `http_parser_parse_url`

The components of a URL by offset and length. Both are `uint16_t` in the source, so positions
are taken modulo `2 ^ 16`; the field set and the field data of a component are one `Option`.
-/

namespace Gxh.HttpParser

/-- `enum http_parser_url_fields`. -/
inductive UrlField
  | UF_SCHEMA
  | UF_HOST
  | UF_PORT
  | UF_PATH
  | UF_QUERY
  | UF_FRAGMENT
  | UF_USERINFO
  deriving DecidableEq, Repr

/-- An entry of `field_data`. -/
structure FieldData where
  off : Nat
  len : Nat
  deriving DecidableEq, Repr

/-- `struct http_parser_url`. -/
structure Url where
  field : UrlField → Option FieldData := fun _ => none
  port : Nat := 0

namespace Url

def set (u : Url) (f : UrlField) (d : FieldData) : Url :=
  { u with field := Function.update u.field f (some d) }

/-- `off = p - buf; len = v`. -/
def begin (u : Url) (f : UrlField) (pos v : Nat) : Url := u.set f ⟨pos % 2 ^ 16, v⟩

/-- `len++`. -/
def grow (u : Url) (f : UrlField) : Url :=
  match u.field f with
  | none => u
  | some d => u.set f ⟨d.off, (d.len + 1) % 2 ^ 16⟩

/-- The text of a component, `std::string(buf + off, len)`. -/
def text (u : Url) (f : UrlField) (buf : List UInt8) : Option (List UInt8) :=
  (u.field f).map fun d => (buf.drop d.off).take d.len

end Url

/-- `enum http_host_state`. -/
inductive HostState
  | s_http_host_dead
  | s_http_userinfo_start
  | s_http_userinfo
  | s_http_host_start
  | s_http_host_v6_start
  | s_http_host
  | s_http_host_v6
  | s_http_host_v6_end
  | s_http_host_v6_zone_start
  | s_http_host_v6_zone
  | s_http_host_port_start
  | s_http_host_port
  deriving DecidableEq, Repr

/-- `http_parse_host_char`. -/
def parseHostChar (s : HostState) (ch : UInt8) : HostState :=
  match s with
  | .s_http_userinfo | .s_http_userinfo_start =>
      if ch = '@' then .s_http_host_start
      else if isUserinfoChar ch then .s_http_userinfo
      else .s_http_host_dead
  | .s_http_host_start =>
      if ch = '[' then .s_http_host_v6_start
      else if isHostChar ch then .s_http_host
      else .s_http_host_dead
  | .s_http_host =>
      if isHostChar ch then .s_http_host
      else if ch = ':' then .s_http_host_port_start
      else .s_http_host_dead
  | .s_http_host_v6_end => if ch = ':' then .s_http_host_port_start else .s_http_host_dead
  | .s_http_host_v6 =>
      if ch = ']' then .s_http_host_v6_end
      else if isHex ch || ch = ':' || ch = '.' then .s_http_host_v6
      else if ch = '%' then .s_http_host_v6_zone_start
      else .s_http_host_dead
  | .s_http_host_v6_start =>
      if isHex ch || ch = ':' || ch = '.' then .s_http_host_v6 else .s_http_host_dead
  | .s_http_host_v6_zone => if ch = ']' then .s_http_host_v6_end else zoneChar ch
  | .s_http_host_v6_zone_start => zoneChar ch
  | .s_http_host_port | .s_http_host_port_start =>
      if isNum ch then .s_http_host_port else .s_http_host_dead
  | .s_http_host_dead => .s_http_host_dead
where
  /-- what `s_http_host_v6_zone` falls through to -/
  zoneChar (ch : UInt8) : HostState :=
    if isAlphanum ch || ch = '%' || ch = '.' || ch = '-' || ch = '_' || ch = '~' then
      .s_http_host_v6_zone
    else .s_http_host_dead

/-- The loop of `http_parse_host` at position `pos`, in state `s`. -/
def hostLoop (s : HostState) (u : Url) (pos : Nat) : List UInt8 → Option (HostState × Url)
  | [] => some (s, u)
  | ch :: rest =>
      let t := parseHostChar s ch
      let u' : Url :=
        match t with
        | .s_http_host | .s_http_host_v6 =>
            -- the offset moves to the first byte of the name, the length goes on counting
            let u :=
              if s = t then u
              else u.set .UF_HOST ⟨pos % 2 ^ 16, ((u.field .UF_HOST).map (·.len)).getD 0⟩
            u.grow .UF_HOST
        | .s_http_host_v6_zone_start | .s_http_host_v6_zone => u.grow .UF_HOST
        | .s_http_host_port => (if s = t then u else u.begin .UF_PORT pos 0).grow .UF_PORT
        | .s_http_userinfo => (if s = t then u else u.begin .UF_USERINFO pos 0).grow .UF_USERINFO
        | _ => u
      if t = .s_http_host_dead then none else hostLoop t u' (pos + 1) rest

/-- `http_parse_host`. -/
def parseHost (buf : List UInt8) (u : Url) (foundAt : Bool) : Option Url :=
  match u.field .UF_HOST with
  | none => none
  | some d =>
      let u := u.set .UF_HOST ⟨d.off, 0⟩
      let s : HostState := if foundAt then .s_http_userinfo_start else .s_http_host_start
      match hostLoop s u d.off ((buf.drop d.off).take d.len) with
      | none => none
      | some (s, u) =>
          match s with
          | .s_http_host_start | .s_http_host_v6_start | .s_http_host_v6
          | .s_http_host_v6_zone_start | .s_http_host_v6_zone | .s_http_host_port_start
          | .s_http_userinfo | .s_http_userinfo_start => none
          | _ => some u

/-- The component a state of `parse_url_char` belongs to; `none` for the delimiters. -/
def State.urlField : State → Option UrlField
  | .s_req_schema => some .UF_SCHEMA
  | .s_req_server_with_at | .s_req_server => some .UF_HOST
  | .s_req_path => some .UF_PATH
  | .s_req_query_string => some .UF_QUERY
  | .s_req_fragment => some .UF_FRAGMENT
  | _ => none

/-- The loop of `http_parser_parse_url` at position `pos`: `old` is `old_uf`. -/
def urlLoop (s : State) (old : Option UrlField) (foundAt : Bool) (u : Url) (pos : Nat) :
    List UInt8 → Option (Bool × Url)
  | [] => some (foundAt, u)
  | ch :: rest =>
      let s := parseUrlChar s ch
      if s = .s_dead then none
      else
        match s.urlField with
        | none => urlLoop s old foundAt u (pos + 1) rest
        | some f =>
            let foundAt := foundAt || s = .s_req_server_with_at
            let u := if old = some f then u.grow f else u.begin f pos 1
            urlLoop s (some f) foundAt u (pos + 1) rest

/-- The number in the port component, unless it leaves 16 bits. -/
def portLoop (v : Nat) : List UInt8 → Option Nat
  | [] => some v
  | ch :: rest =>
      let v := v * 10 + (ch - '0').toNat
      if 0xffff < v then none else portLoop v rest

/-- `http_parser_parse_url`: `none` is a return value other than 0. -/
def parseUrl (buf : List UInt8) (isConnect : Bool) : Option Url :=
  if buf = [] then none
  else
    let s : State := if isConnect then .s_req_server_start else .s_req_spaces_before_url
    match urlLoop s none false {} 0 buf with
    | none => none
    | some (foundAt, u) =>
        if (u.field .UF_SCHEMA).isSome ∧ u.field .UF_HOST = none then none
        else
          match (if u.field .UF_HOST = none then some u else parseHost buf u foundAt) with
          | none => none
          | some u =>
              if isConnect ∧ ¬onlyHostAndPort u then none
              else
                match u.text .UF_PORT buf with
                | none => some u
                | some digits => (portLoop 0 digits).map fun v => { u with port := v }
where
  /-- the field set of a `CONNECT` request -/
  onlyHostAndPort (u : Url) : Bool :=
    (u.field .UF_HOST).isSome && (u.field .UF_PORT).isSome && u.field .UF_SCHEMA = none &&
      u.field .UF_PATH = none && u.field .UF_QUERY = none && u.field .UF_FRAGMENT = none &&
      u.field .UF_USERINFO = none

end Gxh.HttpParser
