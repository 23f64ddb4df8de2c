import Gxh.HttpParser.Url
import Mathlib.Data.List.TakeWhile

/-!
# HTTP messages

`HttpRequest` and `HttpResponse` of `http.cc`, with the fields the parsers and the server read
and write. A `std::string` is its bytes; the header map is the list of its entries in the order
of `CaseInsensitiveLess`.
-/

namespace Gxh.Http

open HttpParser

/-- `tolower` in the C locale. -/
def tolower (c : UInt8) : UInt8 := if 'A' ≤ c ∧ c ≤ 'Z' then c + 32 else c

/-- `strcasecmp(lhs, rhs) < 0`. -/
def strcaseLess : List UInt8 → List UInt8 → Bool
  | _, [] => false
  | [], _ :: _ => true
  | a :: as, b :: bs =>
      if tolower a < tolower b then true
      else if tolower b < tolower a then false
      else strcaseLess as bs

/-- `c_str()`: what a C function sees of a string. -/
def cStr (s : List UInt8) : List UInt8 := s.takeWhile (· ≠ 0)

theorem cStr_of_not_mem {t : List UInt8} (h : 0 ∉ t) : cStr t = t := by
  unfold cStr
  rw [List.takeWhile_eq_self_iff]
  intro c hc
  simpa using fun hzero : c = 0 => h (hzero ▸ hc)

/-- `strcasecmp(lhs, rhs) == 0`. -/
def strcaseEq (lhs rhs : List UInt8) : Bool :=
  !strcaseLess (cStr lhs) (cStr rhs) && !strcaseLess (cStr rhs) (cStr lhs)

/-- `CaseInsensitiveLess::operator()`. -/
def caseInsensitiveLess (lhs rhs : List UInt8) : Bool := strcaseLess (cStr lhs) (cStr rhs)

/-- `MapType`. -/
abbrev HeaderMap := List (List UInt8 × List UInt8)

namespace HeaderMap

/-- `m[key] = val`: an entry that is there keeps its key. -/
def set (key val : List UInt8) : HeaderMap → HeaderMap
  | [] => [(key, val)]
  | (k, v) :: rest =>
      if caseInsensitiveLess k key then (k, v) :: set key val rest
      else if caseInsensitiveLess key k then (key, val) :: (k, v) :: rest
      else (k, val) :: rest

/-- `m.find(key)`. -/
def find (key : List UInt8) : HeaderMap → Option (List UInt8)
  | [] => none
  | (k, v) :: rest =>
      if caseInsensitiveLess k key then find key rest
      else if caseInsensitiveLess key k then none
      else some v

end HeaderMap

/-- `HttpMethod`: the entries of `HTTP_METHOD_MAP`, numbered as `http_parser` numbers them, and
the value behind the last of them. -/
inductive HttpMethod
  | ofMap (m : Method)
  | INVALID_METHOD
  deriving DecidableEq, Repr

namespace HttpMethod

@[match_pattern] abbrev GET : HttpMethod := .ofMap .GET
@[match_pattern] abbrev POST : HttpMethod := .ofMap .POST
@[match_pattern] abbrev CONNECT : HttpMethod := .ofMap .CONNECT

end HttpMethod

def httpMethodToString : HttpMethod → String
  | .ofMap m => m.string
  | .INVALID_METHOD => "<unknown>"

/-- `HttpRequest`. -/
structure HttpRequest where
  method : HttpMethod := .GET
  version : Nat := 0x11
  close : Bool := true
  websocket : Bool := false
  path : List UInt8 := bytes "/"
  query : List UInt8 := []
  fragment : List UInt8 := []
  body : List UInt8 := []
  headers : HeaderMap := []
  deriving DecidableEq, Repr

namespace HttpRequest

/-- `getHeader` with its default `""`. -/
def getHeader (r : HttpRequest) (key : List UInt8) : List UInt8 := (r.headers.find key).getD []

def setHeader (r : HttpRequest) (key val : List UInt8) : HttpRequest :=
  { r with headers := r.headers.set key val }

def appendBody (r : HttpRequest) (v : List UInt8) : HttpRequest := { r with body := r.body ++ v }

/-- `init`: the connection is kept for `keep-alive` alone. -/
def init (r : HttpRequest) : HttpRequest :=
  let conn := r.getHeader (bytes "connection")
  if conn = [] then r else { r with close := !strcaseEq conn (bytes "keep-alive") }

end HttpRequest

/-- `HttpResponse`. -/
structure HttpResponse where
  status : Nat := 200
  version : Nat := 0x11
  close : Bool := true
  websocket : Bool := false
  reason : List UInt8 := []
  body : List UInt8 := []
  headers : HeaderMap := []
  cookies : List (List UInt8) := []
  deriving DecidableEq, Repr

namespace HttpResponse

def setHeader (r : HttpResponse) (key val : List UInt8) : HttpResponse :=
  { r with headers := r.headers.set key val }

def appendBody (r : HttpResponse) (v : List UInt8) : HttpResponse := { r with body := r.body ++ v }

end HttpResponse

end Gxh.Http
