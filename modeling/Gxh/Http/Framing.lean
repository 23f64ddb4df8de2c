import Mathlib.Data.Bool.AllAny
import Gxh.Http.Dump

/-!
# The framing of requests

`decodeRequest` reads one request off a stream of bytes by the rules of the protocol, whatever
program has written it: a request line, header lines up to an empty one, and a body of as many
bytes as `Content-Length` says, none if there is no such header. What is left is the start of
the next request.

`HttpRequest::dump` writes the length of a body that is not empty, in place of the one the
header map may hold. For an empty body it writes the header map as it is. So what it writes
ends where the request ends if and only if an empty body goes without a `Content-Length` or with
one of 0.
-/

namespace Gxh.Http

open HttpParser

/-! ## The rules -/

/-- The bytes before the first `c` and those after it. -/
def splitByte (c : UInt8) : List UInt8 → Option (List UInt8 × List UInt8)
  | [] => none
  | x :: rest => if x = c then some ([], rest) else (splitByte c rest).map fun r => (x :: r.1, r.2)

/-- The bytes before the first line end and those after it. -/
def takeLine : List UInt8 → Option (List UInt8 × List UInt8)
  | [] => none
  | x :: rest =>
      if x = CR ∧ rest.head? = some LF then some ([], rest.tail)
      else (takeLine rest).map fun r => (x :: r.1, r.2)

def trim (l : List UInt8) : List UInt8 :=
  ((l.dropWhile isBlank).reverse.dropWhile isBlank).reverse

def httpMethods : List Method :=
  [.DELETE, .GET, .HEAD, .POST, .PUT, .CONNECT, .OPTIONS, .TRACE, .COPY, .LOCK, .MKCOL, .MOVE,
    .PROPFIND, .PROPPATCH, .SEARCH, .UNLOCK, .BIND, .REBIND, .UNBIND, .ACL, .REPORT, .MKACTIVITY,
    .CHECKOUT, .MERGE, .MSEARCH, .NOTIFY, .SUBSCRIBE, .UNSUBSCRIBE, .PATCH, .PURGE, .MKCALENDAR,
    .LINK, .UNLINK, .SOURCE]

def decodeMethod (l : List UInt8) : Option Method := httpMethods.find? fun m => bytes m.string = l

/-- `HTTP/major.minor`, as the byte the messages keep. -/
def decodeVersion (l : List UInt8) : Option Nat :=
  if l.take 5 = bytes "HTTP/" then
    (splitByte '.' (l.drop 5)).bind fun r =>
      (ofDecimal r.1).bind fun major => (ofDecimal r.2).map fun minor => major * 16 + minor
  else none

/-- Path, query and fragment of an absolute path; what is not there is empty. -/
def decodeTarget (l : List UInt8) : Option (List UInt8 × List UInt8 × List UInt8) :=
  if l.head? = some '/' then
    let (front, fragment) := (splitByte '#' l).getD (l, [])
    let (path, query) := (splitByte '?' front).getD (front, [])
    some (path, query, fragment)
  else none

def decodeField (l : List UInt8) : Option (List UInt8 × List UInt8) :=
  (splitByte ':' l).bind fun r => if isToken r.1 then some (r.1, trim r.2) else none

/-- Header lines up to the empty line; every line takes some of the `fuel`. -/
def decodeFields : Nat → List UInt8 → Option (List (List UInt8 × List UInt8) × List UInt8)
  | 0, _ => none
  | fuel + 1, l =>
      (takeLine l).bind fun r =>
        if r.1 = [] then some ([], r.2)
        else
          (decodeField r.1).bind fun field =>
            (decodeFields fuel r.2).map fun fs => (field :: fs.1, fs.2)

/-- The header of this name. -/
def named (name : String) (i : List UInt8 × List UInt8) : Bool := strcaseEq i.1 (bytes name)

/-- The length of the body: a request with a transfer coding is not framed by its length, and
one with two lengths is not framed at all. -/
def bodyLength (fields : List (List UInt8 × List UInt8)) : Option Nat :=
  if fields.any (named "transfer-encoding") then none
  else
    match fields.filter (named "content-length") with
    | [] => some 0
    | [i] => ofDecimal i.2
    | _ => none

/-- A request as it came. -/
structure Decoded where
  method : Method
  version : Nat
  path : List UInt8
  query : List UInt8
  fragment : List UInt8
  fields : List (List UInt8 × List UInt8)
  body : List UInt8
  deriving DecidableEq, Repr

def decodeRequest (l : List UInt8) : Option (Decoded × List UInt8) :=
  (takeLine l).bind fun first =>
    (splitByte ' ' first.1).bind fun r =>
      (splitByte ' ' r.2).bind fun r' =>
        (decodeMethod r.1).bind fun method =>
          (decodeTarget r'.1).bind fun target =>
            (decodeVersion r'.2).bind fun version =>
              (decodeFields first.2.length first.2).bind fun fs =>
                (bodyLength fs.1).bind fun n =>
                  if n ≤ fs.2.length then
                    some (⟨method, version, target.1, target.2.1, target.2.2, fs.1, fs.2.take n⟩,
                      fs.2.drop n)
                  else none

/-! ## What the steps read -/

theorem splitByte_append {c : UInt8} {l : List UInt8} (h : c ∉ l) (rest : List UInt8) :
    splitByte c (l ++ c :: rest) = some (l, rest) := by
  induction l with
  | nil => simp [splitByte]
  | cons x l ih =>
      rw [List.mem_cons, not_or] at h
      simp [splitByte, ih h.2, Ne.symm h.1]

theorem splitByte_eq_none {c : UInt8} {l : List UInt8} (h : c ∉ l) : splitByte c l = none := by
  induction l with
  | nil => rfl
  | cons x l ih =>
      rw [List.mem_cons, not_or] at h
      simp [splitByte, ih h.2, Ne.symm h.1]

theorem takeLine_append {l : List UInt8} (h : CR ∉ l) (rest : List UInt8) :
    takeLine (l ++ crlf ++ rest) = some (l, rest) := by
  induction l with
  | nil => simp [takeLine, crlf]
  | cons x l ih =>
      rw [List.mem_cons, not_or] at h
      simp only [List.cons_append, takeLine]
      rw [if_neg (fun hx => h.1 hx.1.symm), ih h.2]
      rfl

theorem decodeMethod_ofMap (m : Method) :
    decodeMethod (bytes (httpMethodToString (.ofMap m))) = some m := by
  cases m <;> decide

/-- What is written for the value behind the map is no method. -/
theorem decodeMethod_invalid :
    decodeMethod (bytes (httpMethodToString .INVALID_METHOD)) = none := by
  decide

theorem digit_ne {n : Nat} {c : UInt8} (hc : digitValue c = none) : c ∉ decimal n := by
  intro hmem
  obtain ⟨d, hd, rfl⟩ := digit_of_mem_decimal hmem
  rw [digitValue_digit d hd] at hc
  cases hc

theorem decodeVersion_eq (major minor : Nat) :
    decodeVersion (bytes "HTTP/" ++ decimal major ++ bytes "." ++ decimal minor) =
      some (major * 16 + minor) := by
  have hdot : ('.' : UInt8) ∉ decimal major := digit_ne (by decide)
  have htake : (bytes "HTTP/" ++ decimal major ++ bytes "." ++ decimal minor).take 5 =
      bytes "HTTP/" := by
    rw [List.append_assoc, List.append_assoc]
    exact List.take_left' (by decide)
  have hdrop : (bytes "HTTP/" ++ decimal major ++ bytes "." ++ decimal minor).drop 5 =
      decimal major ++ ('.' : UInt8) :: decimal minor := by
    rw [List.append_assoc, List.append_assoc]
    exact List.drop_left' (by decide)
  unfold decodeVersion
  rw [if_pos htake, hdrop, splitByte_append hdot]
  simp [ofDecimal_decimal]

theorem decodeTarget_eq {path query fragment : List UInt8} (hpath : path.head? = some '/')
    (hplain : ∀ c ∈ path, c ≠ '?' ∧ c ≠ '#') (hquery : ('#' : UInt8) ∉ query) :
    decodeTarget (path ++ (if query = [] then [] else bytes "?") ++ query ++
      (if fragment = [] then [] else bytes "#") ++ fragment) = some (path, query, fragment) := by
  have hmark : ('?' : UInt8) ∉ path := fun h => (hplain _ h).1 rfl
  have hfront : ('#' : UInt8) ∉ path ++ (if query = [] then [] else bytes "?") ++ query := by
    simp only [List.mem_append, not_or]
    refine ⟨⟨fun h => (hplain _ h).2 rfl, ?_⟩, hquery⟩
    split
    · simp
    · decide
  have hhead : (path ++ (if query = [] then [] else bytes "?") ++ query ++
      (if fragment = [] then [] else bytes "#") ++ fragment).head? = some '/' := by
    simp [List.head?_append, hpath]
  -- the fragment is split off first
  have hsplit : (splitByte '#' (path ++ (if query = [] then [] else bytes "?") ++ query ++
      (if fragment = [] then [] else bytes "#") ++ fragment)).getD
        (path ++ (if query = [] then [] else bytes "?") ++ query ++
          (if fragment = [] then [] else bytes "#") ++ fragment, []) =
      (path ++ (if query = [] then [] else bytes "?") ++ query, fragment) := by
    by_cases hf : fragment = []
    · rw [if_pos hf, hf, List.append_nil, List.append_nil, splitByte_eq_none hfront]
      rfl
    · rw [if_neg hf, List.append_assoc _ (bytes "#")]
      exact congrArg (Option.getD · _) (splitByte_append hfront fragment)
  have hsplit' : (splitByte '?' (path ++ (if query = [] then [] else bytes "?") ++ query)).getD
      (path ++ (if query = [] then [] else bytes "?") ++ query, []) = (path, query) := by
    by_cases hq : query = []
    · rw [if_pos hq, hq, List.append_nil, List.append_nil, splitByte_eq_none hmark]
      rfl
    · rw [if_neg hq, List.append_assoc]
      exact congrArg (Option.getD · _) (splitByte_append hmark query)
  unfold decodeTarget
  rw [if_pos hhead]
  simp only [hsplit, hsplit']

theorem trim_eq {v : List UInt8} (h : isFieldText v = true) : trim ((' ' : UInt8) :: v) = v := by
  simp only [isFieldText, Bool.and_eq_true] at h
  have hfirst : v.dropWhile isBlank = v := by
    cases v with
    | nil => rfl
    | cons x rest =>
        have hx : isBlank x = false := by simpa using h.1.2
        rw [List.dropWhile_cons_of_neg (by simp [hx])]
  have hlast : v.reverse.dropWhile isBlank = v.reverse := by
    cases hv : v.reverse with
    | nil => rfl
    | cons x rest =>
        have hx : isBlank x = false := by
          have hget : v.getLast? = some x := by rw [← List.head?_reverse, hv]; rfl
          simpa [hget] using h.2
        rw [List.dropWhile_cons_of_neg (by simp [hx])]
  have hblank : ((' ' : UInt8) :: v).dropWhile isBlank = v := by
    rw [List.dropWhile_cons_of_pos (by decide), hfirst]
  rw [trim, hblank, hlast, List.reverse_reverse]

theorem colon_notMem {name : List UInt8} (h : isToken name = true) : (':' : UInt8) ∉ name := by
  intro hmem
  simp only [isToken, Bool.and_eq_true, List.all_eq_true] at h
  have := h.2 _ hmem
  revert this
  decide

theorem decodeField_eq {name value : List UInt8} (hname : isToken name = true)
    (hvalue : isFieldText value = true) :
    decodeField (name ++ bytes ": " ++ value) = some (name, value) := by
  have hsplit : splitByte ':' (name ++ bytes ": " ++ value) =
      some (name, (' ' : UInt8) :: value) := by
    rw [List.append_assoc]
    exact splitByte_append (colon_notMem hname) _
  rw [decodeField, hsplit, Option.bind_some, if_pos hname, trim_eq hvalue]

theorem CR_notMem_token {name : List UInt8} (h : isToken name = true) : CR ∉ name := by
  intro hmem
  simp only [isToken, Bool.and_eq_true, List.all_eq_true] at h
  have := h.2 _ hmem
  revert this
  decide

theorem CR_notMem_text {value : List UInt8} (h : isFieldText value = true) : CR ∉ value := by
  intro hmem
  simp only [isFieldText, Bool.and_eq_true, List.all_eq_true] at h
  have := h.1.1 _ hmem
  revert this
  decide

/-- Header lines are read up to the empty line behind them. -/
theorem decodeFields_eq {fields : List (List UInt8 × List UInt8)} {fuel : Nat}
    (hfuel : fields.length < fuel) (hnames : ∀ i ∈ fields, isToken i.1 = true)
    (hvalues : ∀ i ∈ fields, isFieldText i.2 = true) (rest : List UInt8) :
    decodeFields fuel (headerLines fields ++ crlf ++ rest) = some (fields, rest) := by
  induction fields generalizing fuel with
  | nil =>
      obtain ⟨fuel, rfl⟩ : ∃ n, fuel = n + 1 := ⟨fuel - 1, by simp at hfuel; omega⟩
      rw [decodeFields, show headerLines [] ++ crlf ++ rest = [] ++ crlf ++ rest from rfl,
        takeLine_append (by simp)]
      rfl
  | cons i fields ih =>
      obtain ⟨name, value⟩ := i
      obtain ⟨fuel, rfl⟩ : ∃ n, fuel = n + 1 := ⟨fuel - 1, by omega⟩
      have hname := hnames _ List.mem_cons_self
      have hvalue := hvalues _ List.mem_cons_self
      have hline : CR ∉ name ++ bytes ": " ++ value := by
        simp only [List.mem_append, not_or]
        exact ⟨⟨CR_notMem_token hname, by decide⟩, CR_notMem_text hvalue⟩
      have hsplit : headerLines ((name, value) :: fields) ++ crlf ++ rest =
          (name ++ bytes ": " ++ value) ++ crlf ++ (headerLines fields ++ crlf ++ rest) := by
        simp [headerLines, headerLine]
      have hne : name ++ bytes ": " ++ value ≠ [] := by
        intro h
        simp [bytes] at h
      rw [hsplit, decodeFields, takeLine_append hline, Option.bind_some, if_neg hne,
        decodeField_eq hname hvalue, Option.bind_some,
        ih (by simp at hfuel; omega) (fun i hi => hnames i (List.mem_cons_of_mem _ hi))
          (fun i hi => hvalues i (List.mem_cons_of_mem _ hi))]
      rfl

/-! ## What `dump` writes -/

/-- A request that is not a websocket one, with a url, header names and header values that are
well formed, and no transfer coding. A `Content-Length` may be among the headers. -/
structure HttpRequest.Plain (r : HttpRequest) : Prop where
  websocket : r.websocket = false
  absolute : r.path.head? = some '/'
  path : ∀ c ∈ r.path, isUrlChar c = true
  query : ∀ c ∈ r.query, isUrlChar c = true ∨ c = '?'
  fragment : ∀ c ∈ r.fragment, isUrlChar c = true ∨ c = '?' ∨ c = '#'
  sorted : r.headers.Sorted
  names : ∀ i ∈ r.headers, isToken i.1 = true
  values : ∀ i ∈ r.headers, isFieldText i.2 = true
  coding : ∀ i ∈ r.headers, named "transfer-encoding" i = false

/-- What is decoded is the request: the headers other than `connection` and `content-length` are
the same ones, and the one `connection` header says what the close flag says. -/
structure HttpRequest.Same (r : HttpRequest) (d : Decoded) : Prop where
  method : .ofMap d.method = r.method
  version : d.version = r.version
  path : d.path = r.path
  query : d.query = r.query
  fragment : d.fragment = r.fragment
  body : d.body = r.body
  headers : d.fields.filter (fun i => !named "connection" i && !named "content-length" i) =
    r.headers.filter fun i => !named "connection" i && !named "content-length" i
  connection : d.fields.filter (named "connection") = [(bytes "connection", closeText r.close)]

/-- The bytes `dump` writes are one request, and the same one. -/
def HttpRequest.SelfDelimiting (r : HttpRequest) : Prop :=
  ∃ d, decodeRequest r.dump = some (d, []) ∧ r.Same d

namespace HttpRequest

variable {r : HttpRequest}

/-- All the header lines, with the length of the body. -/
def lines (r : HttpRequest) : List (List UInt8 × List UInt8) := r.fields ++ lengthField r.body

theorem isToken_name :
    isToken (bytes "connection") = true ∧ isToken (bytes "content-length") = true := by
  decide

theorem named_mk (name : String) (k v : List UInt8) :
    named name (k, v) = strcaseEq k (bytes name) := rfl

theorem isFieldText_closeText (close : Bool) : isFieldText (closeText close) = true := by
  cases close <;> decide

theorem isFieldText_decimal (n : Nat) : isFieldText (decimal n) = true := by
  have hdigit : ∀ c ∈ decimal n, c ≠ CR ∧ c ≠ LF ∧ isBlank c = false := by
    intro c hc
    obtain ⟨d, hd, rfl⟩ := digit_of_mem_decimal hc
    clear hc
    revert d
    decide
  simp only [isFieldText, Bool.and_eq_true, List.all_eq_true]
  refine ⟨⟨?_, ?_⟩, ?_⟩
  · intro c hc
    simp [(hdigit c hc).1, (hdigit c hc).2.1]
  · cases hhead : (decimal n).head? with
    | none => rfl
    | some c => simp [(hdigit c (List.mem_of_head? hhead)).2.2]
  · cases hlast : (decimal n).getLast? with
    | none => rfl
    | some c => simp [(hdigit c (List.mem_of_getLast? hlast)).2.2]

/-- Every line is an entry of the map or one of the two that `dump` writes itself. -/
theorem mem_lines {i : List UInt8 × List UInt8} (h : i ∈ r.lines) :
    i = (bytes "connection", closeText r.close) ∨ i ∈ r.headers ∨
      i = (bytes "content-length", decimal r.body.length) := by
  rcases List.mem_append.mp h with hfield | hlength
  · rcases List.mem_cons.mp hfield with rfl | hmem
    · exact .inl rfl
    · exact .inr (.inl (List.mem_of_mem_filter hmem))
  · unfold lengthField at hlength
    split at hlength
    · cases hlength
    · exact .inr (.inr (List.mem_singleton.mp hlength))

theorem Plain.line_ok (h : r.Plain) {i : List UInt8 × List UInt8} (hi : i ∈ r.lines) :
    isToken i.1 = true ∧ isFieldText i.2 = true ∧ named "transfer-encoding" i = false := by
  rcases mem_lines hi with rfl | hmem | rfl
  · exact ⟨isToken_name.1, isFieldText_closeText _, (named_mk _ _ _).trans (by decide)⟩
  · exact ⟨h.names i hmem, h.values i hmem, h.coding i hmem⟩
  · exact ⟨isToken_name.2, isFieldText_decimal _, (named_mk _ _ _).trans (by decide)⟩

/-- No blank stands in the target, and no line end in the request line. -/
theorem Plain.target_ok (h : r.Plain) {c : UInt8} (hc : c ∈ r.target) :
    c ≠ ' ' ∧ c ≠ CR := by
  have hchar : isUrlChar c = true ∨ c = '?' ∨ c = '#' := by
    simp only [target, List.mem_append] at hc
    rcases hc with (((hp | hm) | hq) | hm) | hf
    · exact .inl (h.path c hp)
    · split at hm
      · cases hm
      · exact .inr (.inl (List.mem_singleton.mp hm))
    · exact (h.query c hq).imp_right .inl
    · split at hm
      · cases hm
      · exact .inr (.inr (List.mem_singleton.mp hm))
    · exact h.fragment c hf
  rcases hchar with hurl | rfl | rfl
  · refine ⟨?_, ?_⟩
    · rintro rfl
      revert hurl
      decide
    · rintro rfl
      revert hurl
      decide
  · decide
  · decide

theorem length_le_headerLines (fields : List (List UInt8 × List UInt8)) :
    fields.length ≤ (headerLines fields).length := by
  induction fields with
  | nil => exact Nat.le_refl _
  | cons i rest ih =>
      simp only [headerLines, List.flatMap_cons, List.length_append, List.length_cons,
        headerLine, crlf] at ih ⊢
      omega

/-- Everything up to the body is read, and the length says what is the body of what follows. -/
theorem Plain.decode_eq (h : r.Plain) :
    decodeRequest r.dump =
      (decodeMethod (bytes (httpMethodToString r.method))).bind fun method =>
        (bodyLength r.lines).bind fun n =>
          if n ≤ r.body.length then
            some (⟨method, r.version, r.path, r.query, r.fragment, r.lines, r.body.take n⟩,
              r.body.drop n)
          else none := by
  have hmethod : (' ' : UInt8) ∉ bytes (httpMethodToString r.method) ∧
      CR ∉ bytes (httpMethodToString r.method) := by
    cases r.method with
    | ofMap m => cases m <;> decide
    | INVALID_METHOD => decide
  have hspace : (' ' : UInt8) ∉ r.target := fun hc => (h.target_ok hc).1 rfl
  have hversion : (r.version >>> 4) * 16 + (r.version &&& 0x0F) = r.version := by
    rw [Nat.shiftRight_eq_div_pow, show 0x0F = 2 ^ 4 - 1 from rfl, Nat.and_two_pow_sub_one_eq_mod]
    omega
  -- the request line
  have hline : r.requestLine = bytes (httpMethodToString r.method) ++ (' ' : UInt8) ::
      (r.target ++ (' ' : UInt8) :: (bytes "HTTP/" ++ decimal (r.version >>> 4) ++ bytes "." ++
        decimal (r.version &&& 0x0F))) := by
    simp [requestLine, bytes]
  have hCR : CR ∉ r.requestLine := by
    have hdigits : ∀ n, CR ∉ decimal n := fun n => digit_ne (by decide)
    simp only [requestLine, List.mem_append, not_or]
    exact ⟨⟨⟨⟨⟨⟨hmethod.2, by decide⟩, fun hc => (h.target_ok hc).2 rfl⟩, by decide⟩, hdigits _⟩,
      by decide⟩, hdigits _⟩
  have htarget : decodeTarget r.target = some (r.path, r.query, r.fragment) := by
    refine decodeTarget_eq h.absolute ?_ ?_
    · intro c hc
      have hurl := h.path c hc
      constructor
      · rintro rfl
        revert hurl
        decide
      · rintro rfl
        revert hurl
        decide
    · intro hc
      have hurl := h.query _ hc
      revert hurl
      decide
  -- the header lines
  have hfuel : r.lines.length < (headerLines r.lines ++ crlf ++ r.body).length := by
    have := length_le_headerLines r.lines
    simp only [List.length_append, crlf, List.length_cons]
    omega
  have hfields := decodeFields_eq hfuel (fun i hi => (h.line_ok hi).1)
    (fun i hi => (h.line_ok hi).2.1) r.body
  unfold decodeRequest
  rw [dump_eq h.websocket, List.append_assoc, List.append_assoc,
    ← List.append_assoc (headerLines _),
    takeLine_append hCR, Option.bind_some, hline, splitByte_append hmethod.1, Option.bind_some,
    splitByte_append hspace, Option.bind_some]
  refine congrArg _ (funext fun method => ?_)
  rw [htarget, Option.bind_some, decodeVersion_eq, Option.bind_some, hversion, ← lines, hfields,
    Option.bind_some]

/-! ## The length -/

theorem connection_ne_length {i : List UInt8 × List UInt8} (h : named "content-length" i = true) :
    named "connection" i = false := by
  unfold named at h ⊢
  rw [strcaseEq_iff] at h
  rw [← Bool.not_eq_true, strcaseEq_iff, h]
  decide

/-- The `content-length` lines: the one of the body, or those of the header map. -/
theorem filter_length (r : HttpRequest) :
    r.lines.filter (named "content-length") =
      if r.body = [] then r.headers.filter (named "content-length") else lengthField r.body := by
  have hown : named "content-length" (bytes "connection", closeText r.close) = false :=
    (named_mk _ _ _).trans (by decide)
  have hlength : ∀ l, named "content-length" (bytes "content-length", l) = true :=
    fun l => (named_mk _ _ l).trans (by decide)
  simp only [lines, fields, List.filter_append, List.filter_cons, hown, Bool.false_eq_true,
    if_false, List.filter_filter]
  by_cases hbody : r.body = []
  · simp only [hbody, if_true, lengthField, List.filter_nil, List.append_nil]
    apply List.filter_congr
    intro i _
    cases hi : named "content-length" i with
    | false => rfl
    | true =>
        have hc : strcaseEq i.1 (bytes "connection") = false := connection_ne_length hi
        simp [hc]
  · rw [if_neg hbody, lengthField, if_neg hbody]
    have hnone : r.headers.filter (fun i => named "content-length" i &&
        (!strcaseEq i.1 (bytes "connection") &&
          !(r.body ≠ [] && strcaseEq i.1 (bytes "content-length")))) = [] := by
      rw [List.filter_eq_nil_iff]
      intro i _
      cases hi : named "content-length" i with
      | false => simp
      | true =>
          have hc : strcaseEq i.1 (bytes "content-length") = true := hi
          simp [hc, hbody]
    rw [hnone, List.filter_cons_of_pos (hlength _)]
    rfl

theorem Plain.bodyLength_eq (h : r.Plain) :
    bodyLength r.lines =
      if r.body = [] then
        (match r.headers.find (bytes "content-length") with
        | none => some 0
        | some v => ofDecimal v)
      else some r.body.length := by
  have hcoding : r.lines.any (named "transfer-encoding") = false := by
    rw [List.any_eq_false]
    intro i hi
    simp [(h.line_ok hi).2.2]
  unfold bodyLength
  rw [hcoding, if_neg (by simp), filter_length]
  by_cases hbody : r.body = []
  · rw [if_pos hbody, if_pos hbody]
    obtain ⟨k, hk⟩ := HeaderMap.filter_eq h.sorted (bytes "content-length")
    have hfilter : r.headers.filter (named "content-length") =
      r.headers.filter fun i => strcaseEq i.1 (bytes "content-length") := rfl
    rw [hfilter, hk]
    cases r.headers.find (bytes "content-length") with
    | none => rfl
    | some v => rfl
  · rw [if_neg hbody, if_neg hbody, lengthField, if_neg hbody]
    exact ofDecimal_decimal _

/-! ## The other headers -/

theorem filter_connection (r : HttpRequest) :
    r.lines.filter (named "connection") = [(bytes "connection", closeText r.close)] := by
  have hown : named "connection" (bytes "connection", closeText r.close) = true :=
    (named_mk _ _ _).trans (by decide)
  have hmap : r.headers.filter (fun i => named "connection" i &&
      (!strcaseEq i.1 (bytes "connection") &&
        !(r.body ≠ [] && strcaseEq i.1 (bytes "content-length")))) = [] := by
    rw [List.filter_eq_nil_iff]
    intro i _
    cases hi : named "connection" i with
    | false => simp
    | true =>
        have hc : strcaseEq i.1 (bytes "connection") = true := hi
        simp [hc]
  have hlength : (lengthField r.body).filter (named "connection") = [] := by
    unfold lengthField
    split
    · rfl
    · rw [List.filter_cons_of_neg (by rw [named_mk]; decide)]
      rfl
  simp only [lines, fields, List.filter_append, List.filter_cons_of_pos hown, List.filter_filter,
    hmap, hlength, List.append_nil]

theorem filter_others (r : HttpRequest) :
    r.lines.filter (fun i => !named "connection" i && !named "content-length" i) =
      r.headers.filter fun i => !named "connection" i && !named "content-length" i := by
  have hlength : (lengthField r.body).filter
      (fun i => !named "connection" i && !named "content-length" i) = [] := by
    unfold lengthField
    split
    · rfl
    · rw [List.filter_cons_of_neg (by rw [named_mk, named_mk]; decide)]
      rfl
  have hmap : (r.headers.filter fun i => !strcaseEq i.1 (bytes "connection") &&
      !(r.body ≠ [] && strcaseEq i.1 (bytes "content-length"))).filter
        (fun i => !named "connection" i && !named "content-length" i) =
      r.headers.filter fun i => !named "connection" i && !named "content-length" i := by
    rw [List.filter_filter]
    apply List.filter_congr
    intro i _
    show (!strcaseEq i.1 (bytes "connection") && !strcaseEq i.1 (bytes "content-length") && _) = _
    cases hn : strcaseEq i.1 (bytes "connection") <;>
      cases hc : strcaseEq i.1 (bytes "content-length") <;> simp [named, hn, hc]
  simp only [lines, fields, List.filter_append, hlength, List.append_nil]
  rw [List.filter_cons_of_neg (by rw [named_mk, named_mk]; decide), hmap]

theorem same_lines {m : Method} (hm : r.method = .ofMap m) :
    r.Same ⟨m, r.version, r.path, r.query, r.fragment, r.lines, r.body⟩ where
  method := hm.symm
  version := rfl
  path := rfl
  query := rfl
  fragment := rfl
  body := rfl
  headers := filter_others r
  connection := filter_connection r

end HttpRequest

/-- What `dump` writes for a well-formed request is one request, the same one, if and only if its
method has a name and an empty body does not go with a `Content-Length` other than 0. -/
theorem request_self_delimiting {r : HttpRequest} (h : r.Plain) :
    r.SelfDelimiting ↔
      r.method ≠ .INVALID_METHOD ∧
        (r.body = [] → ∀ v, r.headers.find (bytes "content-length") = some v →
          ofDecimal v = some 0) := by
  unfold HttpRequest.SelfDelimiting
  rw [h.decode_eq]
  cases hm : r.method with
  | INVALID_METHOD =>
      rw [decodeMethod_invalid, Option.bind_none]
      constructor
      · rintro ⟨d, hd, -⟩
        cases hd
      · rintro ⟨hne, -⟩
        exact absurd rfl hne
  | ofMap m =>
  have hsame := HttpRequest.same_lines hm
  rw [decodeMethod_ofMap, Option.bind_some, h.bodyLength_eq]
  simp only [ne_eq, reduceCtorEq, not_false_eq_true, true_and]
  by_cases hbody : r.body = []
  · rw [if_pos hbody]
    simp only [hbody, List.length_nil, List.take_nil, List.drop_nil, forall_const] at hsame ⊢
    cases r.headers.find (bytes "content-length") with
    | none =>
        refine ⟨fun _ v hv => ?_, fun _ => ⟨_, rfl, hsame⟩⟩
        cases hv
    | some v =>
        constructor
        · rintro ⟨d, hd, -⟩ w hw
          cases hw
          -- a length that is no number, and one above 0, leave nothing decoded
          cases hlen : ofDecimal v with
          | none =>
              simp only [hlen, Option.bind_none] at hd
              cases hd
          | some n =>
              simp only [hlen, Option.bind_some] at hd
              split at hd
              · rename_i hn
                rw [Nat.le_zero.mp hn]
              · cases hd
        · intro hzero
          simp only [hzero v rfl, Option.bind_some]
          exact ⟨_, rfl, hsame⟩
  · rw [if_neg hbody, Option.bind_some, if_pos (Nat.le_refl _), List.take_length,
      List.drop_length]
    exact ⟨fun _ hnil => absurd hnil hbody, fun _ => ⟨_, rfl, hsame⟩⟩

/-- A form as it was received. -/
def postForm : HttpRequest where
  method := .POST
  close := false
  path := bytes "/login"
  query := bytes "next=/"
  body := bytes "user=a"
  headers := [(bytes "Content-Length", bytes "6"), (bytes "Host", bytes "b")]

theorem plain_postForm : postForm.Plain where
  websocket := rfl
  absolute := rfl
  path := List.all_iff_forall_prop.mp (by decide)
  query := List.all_iff_forall_prop.mp (by decide)
  fragment := List.all_iff_forall_prop.mp (by decide)
  sorted := by unfold HeaderMap.Sorted OrdMap.Sorted; decide
  names := by decide
  values := by decide
  coding := by decide

theorem request_self_delimiting_form : postForm.SelfDelimiting :=
  (request_self_delimiting plain_postForm).mpr ⟨by decide, fun hbody => absurd hbody (by decide)⟩

/-- `setMethod` takes the value behind the map too, and no decoder reads what is written for it. -/
example : decodeRequest ({ postForm with method := .INVALID_METHOD } : HttpRequest).dump =
    none := by
  decide +kernel

/-- The same request with its body taken out: it announces six bytes and sends none. -/
def emptiedForm : HttpRequest := { postForm with body := [] }

theorem request_stale_length : emptiedForm.Plain ∧ ¬ emptiedForm.SelfDelimiting := by
  refine ⟨⟨rfl, rfl, plain_postForm.path, plain_postForm.query, plain_postForm.fragment,
    plain_postForm.sorted, plain_postForm.names, plain_postForm.values, plain_postForm.coding⟩, ?_⟩
  rintro ⟨d, hd, -⟩
  have hnone : decodeRequest emptiedForm.dump = none := by decide +kernel
  rw [hnone] at hd
  cases hd

end Gxh.Http
