import Mathlib.Data.List.DropRight
import Gxh.Http.Dump
import Gxh.Lib.LazyMap

/-!
# Parameters and cookies of a request

The part of `HttpRequest` that is parsed on demand: `m_params` and `m_cookies`, filled by
`initQueryParam`, `initBodyParam` and `initCookies` when an observer is first called, with one bit
of `m_parserParamFlag` for each. With the functions of `StringUtil` that the parsing uses.
-/

namespace Gxh.Http

open HttpParser OrdMap

/-! ## Text -/

/-- `strcasecmp` over the length of the first. -/
def startsCase : List UInt8 → List UInt8 → Bool
  | [], _ => true
  | _ :: _, [] => false
  | n :: ns, c :: cs => tolower n = tolower c && startsCase ns cs

/-- `strcasestr(haystack.c_str(), needle) != nullptr`. -/
def strcasestr (haystack needle : List UInt8) : Bool :=
  (cStr haystack).tails.any (startsCase needle)

def isxdigit (c : UInt8) : Bool := isNum c || ('A' ≤ c && c ≤ 'F') || ('a' ≤ c && c ≤ 'f')

/-- `xdigit_chars`. -/
def xdigitChars (c : UInt8) : UInt8 :=
  if isNum c then c - '0'
  else if 'A' ≤ c ∧ c ≤ 'F' then c - 'A' + 10
  else if 'a' ≤ c ∧ c ≤ 'f' then c - 'a' + 10
  else 0

/-- `StringUtil::UrlDecode`, with a plus for a space. -/
def StringUtil.urlDecode : List UInt8 → List UInt8
  | [] => []
  | c :: rest =>
      if c = '+' then (' ' : UInt8) :: urlDecode rest
      else match rest with
        | a :: b :: rest' =>
            if c = '%' && isxdigit a && isxdigit b then
              (xdigitChars a <<< 4 ||| xdigitChars b) :: urlDecode rest'
            else c :: urlDecode (a :: b :: rest')
        | rest' => c :: urlDecode rest'

/-- The default `delimit` of `StringUtil::Trim`. -/
def isTrimmed (c : UInt8) : Bool := c = ' ' || c = 9 || c = CR || c = LF

/-- `StringUtil::Trim`. -/
def StringUtil.trim (str : List UInt8) : List UInt8 :=
  (str.dropWhile isTrimmed).rdropWhile isTrimmed

/-! ## `PARSE_PARAM` -/

/-- The entries that `PARSE_PARAM` inserts, in their order; `str` is the text from `pos` on. A
round takes the `=` that it finds, so that as many rounds as there are bytes are enough. -/
def parseParamLoop (flag : UInt8) (trim : List UInt8 → List UInt8) :
    Nat → List UInt8 → List (List UInt8 × List UInt8)
  | 0, _ => []
  | fuel + 1, str =>
      match str.dropWhile (· ≠ ('=' : UInt8)) with
      | [] => []
      | _ :: after =>
          let entry := (StringUtil.urlDecode (trim (str.takeWhile (· ≠ ('=' : UInt8)))),
            StringUtil.urlDecode (after.takeWhile (· ≠ flag)))
          match after.dropWhile (· ≠ flag) with
          | [] => [entry]
          | _ :: rest => entry :: parseParamLoop flag trim fuel rest

def parseParam (flag : UInt8) (trim : List UInt8 → List UInt8) (str : List UInt8) :
    List (List UInt8 × List UInt8) := parseParamLoop flag trim str.length str

/-- What is left of a text after a round is shorter than the text. -/
theorem round_shorter {flag c d : UInt8} {str after rest : List UInt8}
    (hkey : str.dropWhile (· ≠ ('=' : UInt8)) = c :: after)
    (hval : after.dropWhile (· ≠ flag) = d :: rest) : rest.length < str.length := by
  have h1 : (c :: after).length ≤ str.length := hkey ▸ (List.dropWhile_sublist _).length_le
  have h2 : (d :: rest).length ≤ after.length := hval ▸ (List.dropWhile_sublist _).length_le
  rw [List.length_cons] at h1 h2
  omega

theorem parseParamLoop_fuel (flag : UInt8) (trim : List UInt8 → List UInt8) {fuel : Nat}
    {str : List UInt8} (h : str.length ≤ fuel) :
    parseParamLoop flag trim fuel str = parseParam flag trim str := by
  have hsame : ∀ n m (str : List UInt8), str.length ≤ n → str.length ≤ m →
      parseParamLoop flag trim n str = parseParamLoop flag trim m str := by
    intro n
    induction n with
    | zero =>
        intro m str hn hm
        have hstr : str = [] := List.eq_nil_of_length_eq_zero (Nat.le_zero.mp hn)
        subst hstr
        cases m with
        | zero => rfl
        | succ m => rfl
    | succ n ih =>
        intro m str hn hm
        cases m with
        | zero =>
            have hstr : str = [] := List.eq_nil_of_length_eq_zero (Nat.le_zero.mp hm)
            subst hstr
            rfl
        | succ m =>
            simp only [parseParamLoop]
            split
            · rfl
            · rename_i hkey
              split
              · rfl
              · rename_i hval
                have hshort := round_shorter hkey hval
                rw [ih m _ (by omega) (by omega)]
  exact hsame fuel str.length str h (Nat.le_refl _)

/-- The loop: one round, and the rest of the text. -/
theorem parseParam_round (flag : UInt8) (trim : List UInt8 → List UInt8) (str : List UInt8) :
    parseParam flag trim str =
      match str.dropWhile (· ≠ ('=' : UInt8)) with
      | [] => []
      | _ :: after =>
          let entry := (StringUtil.urlDecode (trim (str.takeWhile (· ≠ ('=' : UInt8)))),
            StringUtil.urlDecode (after.takeWhile (· ≠ flag)))
          match after.dropWhile (· ≠ flag) with
          | [] => [entry]
          | _ :: rest => entry :: parseParam flag trim rest := by
  rw [← parseParamLoop_fuel flag trim (Nat.le_succ str.length), parseParamLoop]
  split
  · rfl
  · rename_i hkey
    split
    · rfl
    · rename_i hval
      rw [parseParamLoop_fuel flag trim (round_shorter hkey hval).le]

/-! ## The request -/

/-- `MapType` with its order. -/
abbrev ParamMap := Map caseKey (List UInt8)

/-- `HttpRequest` with what is parsed on demand. -/
structure LazyRequest extends HttpRequest where
  params : ParamMap := .empty
  cookies : ParamMap := .empty
  /-- `m_parserParamFlag & 0x1`. -/
  queryParsed : Bool := false
  /-- `m_parserParamFlag & 0x2`. -/
  bodyParsed : Bool := false
  /-- `m_parserParamFlag & 0x4`. -/
  cookiesParsed : Bool := false

namespace LazyRequest

def initQueryParam (r : LazyRequest) : LazyRequest :=
  if r.queryParsed then r
  else
    { r with
      params := r.params.insertAll ranks_caseKey (parseParam '&' id r.query)
      queryParsed := true }

def initBodyParam (r : LazyRequest) : LazyRequest :=
  if r.bodyParsed then r
  else
    let contentType := r.getHeader (bytes "content-type")
    if !strcasestr contentType (bytes "application/x-www-form-urlencoded") then
      { r with bodyParsed := true }
    else
      { r with
        params := r.params.insertAll ranks_caseKey (parseParam '&' id r.body)
        bodyParsed := true }

def initCookies (r : LazyRequest) : LazyRequest :=
  if r.cookiesParsed then r
  else
    let cookie := r.getHeader (bytes "cookie")
    if cookie = [] then { r with cookiesParsed := true }
    else
      { r with
        cookies := r.cookies.insertAll ranks_caseKey (parseParam ';' StringUtil.trim cookie)
        cookiesParsed := true }

/-- `getParam(key, def)`. -/
def getParam (r : LazyRequest) (key dflt : List UInt8) : List UInt8 × LazyRequest :=
  let r := r.initQueryParam.initBodyParam
  ((r.params.find caseInsensitiveLess key).getD dflt, r)

/-- `getCookie(key, def)`. -/
def getCookie (r : LazyRequest) (key dflt : List UInt8) : List UInt8 × LazyRequest :=
  let r := r.initCookies
  ((r.cookies.find caseInsensitiveLess key).getD dflt, r)

/-- `hasParam(key, &val)`: what it stores in `val` when it returns `true`. -/
def hasParam (r : LazyRequest) (key : List UInt8) : Option (List UInt8) × LazyRequest :=
  let r := r.initQueryParam.initBodyParam
  (r.params.find caseInsensitiveLess key, r)

/-- `hasCookie(key, &val)`. -/
def hasCookie (r : LazyRequest) (key : List UInt8) : Option (List UInt8) × LazyRequest :=
  let r := r.initCookies
  (r.cookies.find caseInsensitiveLess key, r)

def setQuery (r : LazyRequest) (v : List UInt8) : LazyRequest := { r with query := v }

def setBody (r : LazyRequest) (v : List UInt8) : LazyRequest := { r with body := v }

def setHeader (r : LazyRequest) (key val : List UInt8) : LazyRequest :=
  { r with toHttpRequest := r.toHttpRequest.setHeader key val }

def setParam (r : LazyRequest) (key val : List UInt8) : LazyRequest :=
  { r with params := r.params.set ranks_caseKey key val }

def setCookie (r : LazyRequest) (key val : List UInt8) : LazyRequest :=
  { r with cookies := r.cookies.set ranks_caseKey key val }

def delParam (r : LazyRequest) (key : List UInt8) : LazyRequest :=
  { r with params := r.params.erase caseInsensitiveLess key }

def delCookie (r : LazyRequest) (key : List UInt8) : LazyRequest :=
  { r with cookies := r.cookies.erase caseInsensitiveLess key }

end LazyRequest

/-! ## Calls -/

inductive Call
  | getParam (key dflt : List UInt8)
  | hasParam (key : List UInt8)
  | getCookie (key dflt : List UInt8)
  | hasCookie (key : List UInt8)
  | setQuery (v : List UInt8)
  | setBody (v : List UInt8)
  | setHeader (key val : List UInt8)
  | setParam (key val : List UInt8)
  | delParam (key : List UInt8)
  | setCookie (key val : List UInt8)
  | delCookie (key : List UInt8)
  deriving DecidableEq, Repr

/-- What a call returns. -/
inductive Result
  | text (v : List UInt8)
  | found (val : Option (List UInt8))
  | done
  deriving DecidableEq, Repr

/-- The observers. -/
def Call.observes : Call → Bool
  | .getParam .. | .hasParam _ | .getCookie .. | .hasCookie _ => true
  | _ => false

namespace LazyRequest

def call (r : LazyRequest) : Call → Result × LazyRequest
  | .getParam key dflt => ((.text (r.getParam key dflt).1), (r.getParam key dflt).2)
  | .hasParam key => ((.found (r.hasParam key).1), (r.hasParam key).2)
  | .getCookie key dflt => ((.text (r.getCookie key dflt).1), (r.getCookie key dflt).2)
  | .hasCookie key => ((.found (r.hasCookie key).1), (r.hasCookie key).2)
  | .setQuery v => (.done, r.setQuery v)
  | .setBody v => (.done, r.setBody v)
  | .setHeader key val => (.done, r.setHeader key val)
  | .setParam key val => (.done, r.setParam key val)
  | .delParam key => (.done, r.delParam key)
  | .setCookie key val => (.done, r.setCookie key val)
  | .delCookie key => (.done, r.delCookie key)

/-- The request after some calls. -/
def run (r : LazyRequest) (cs : List Call) : LazyRequest := cs.foldl (fun r c => (r.call c).2) r

/-- What they returned. -/
def results (r : LazyRequest) : List Call → List Result
  | [] => []
  | c :: cs => (r.call c).1 :: results (r.call c).2 cs

theorem run_append (r : LazyRequest) (xs ys : List Call) : r.run (xs ++ ys) = (r.run xs).run ys :=
  List.foldl_append

theorem results_append (r : LazyRequest) (xs ys : List Call) :
    r.results (xs ++ ys) = r.results xs ++ (r.run xs).results ys := by
  induction xs generalizing r with
  | nil => rfl
  | cons c cs ih =>
      show _ :: results (r.call c).2 (cs ++ ys) = _ :: (results (r.call c).2 cs ++ _)
      rw [ih]
      rfl

theorem results_length (r : LazyRequest) (xs : List Call) : (r.results xs).length = xs.length := by
  induction xs generalizing r with
  | nil => rfl
  | cons c cs ih =>
      show (results _ _).length + 1 = cs.length + 1
      rw [ih]

end LazyRequest

end Gxh.Http
