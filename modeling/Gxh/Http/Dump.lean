import Gxh.Lib.Decimal
import Gxh.Lib.OrdMap
import Gxh.Http.Message

/-!
# Messages as text

`HttpRequest::dump` and `HttpResponse::dump` of `http.cc`, and the order of header names they
and the header map share. `strcasecmp` compares the names with all letters in lower case
(`caseKey`), so that two names are the same header when their keys are equal.
-/

namespace Gxh.Http

open HttpParser

/-! ## Header names -/

/-- What `strcasecmp` sees of a name. -/
def caseKey (name : List UInt8) : List Nat := (cStr name).map fun c => (tolower c).toNat

theorem strcaseLess_iff (a b : List UInt8) :
    strcaseLess a b = true ↔
      a.map (fun c => (tolower c).toNat) < b.map fun c => (tolower c).toNat := by
  induction a generalizing b with
  | nil =>
      cases b with
      | nil => simp [strcaseLess]
      | cons y bs => simp [strcaseLess]
  | cons x as ih =>
      cases b with
      | nil => simp [strcaseLess]
      | cons y bs =>
          simp only [strcaseLess, List.map_cons, List.cons_lt_cons_iff, UInt8.lt_iff_toNat_lt]
          split
          · rename_i hlt
            exact ⟨fun _ => .inl hlt, fun _ => rfl⟩
          · rename_i hlt
            split
            · rename_i hgt
              constructor
              · intro h
                cases h
              · rintro (h | ⟨h, -⟩)
                · omega
                · omega
            · rename_i hgt
              have heq : (tolower x).toNat = (tolower y).toNat := by omega
              simp [ih bs, heq]

theorem ranks_caseKey : OrdMap.Ranks caseInsensitiveLess caseKey :=
  fun a b => strcaseLess_iff (cStr a) (cStr b)

theorem strcaseEq_iff (a b : List UInt8) : strcaseEq a b = true ↔ caseKey a = caseKey b := by
  have hab := ranks_caseKey a b
  have hba := ranks_caseKey b a
  unfold caseInsensitiveLess at hab hba
  unfold strcaseEq
  rw [Bool.and_eq_true, Bool.not_eq_true', Bool.not_eq_true', ← Bool.not_eq_true,
    ← Bool.not_eq_true, hab, hba, not_lt, not_lt]
  exact ⟨fun h => le_antisymm h.2 h.1, fun h => ⟨h.ge, h.le⟩⟩

namespace HeaderMap

/-- The order a header map is kept in. -/
def Sorted (m : HeaderMap) : Prop := OrdMap.Sorted caseKey m

theorem set_eq (key val : List UInt8) (m : HeaderMap) :
    m.set key val = OrdMap.set caseInsensitiveLess key val m := by
  induction m with
  | nil => rfl
  | cons e rest ih => simp only [set, OrdMap.set, ih]

theorem find_eq (key : List UInt8) (m : HeaderMap) :
    m.find key = OrdMap.find caseInsensitiveLess key m := by
  induction m with
  | nil => rfl
  | cons e rest ih => simp only [find, OrdMap.find, ih]

theorem find_set (key val k : List UInt8) (m : HeaderMap) :
    (m.set key val).find k = if caseKey key = caseKey k then some val else m.find k := by
  rw [set_eq, find_eq, find_eq, OrdMap.find_set ranks_caseKey k]
  congr

theorem find_eq_some_iff {m : HeaderMap} (h : m.Sorted) {k v : List UInt8} :
    m.find k = some v ↔ ∃ e ∈ m, caseKey e.1 = caseKey k ∧ e.2 = v := by
  rw [find_eq]
  exact OrdMap.find_eq_some_iff ranks_caseKey h

/-- The entries of a name: the one `find` finds. -/
theorem filter_eq {m : HeaderMap} (h : m.Sorted) (name : List UInt8) :
    ∃ k, m.filter (fun i => strcaseEq i.1 name) = (m.find name).toList.map fun v => (k, v) := by
  induction m with
  | nil => exact ⟨[], rfl⟩
  | cons e rest ih =>
      obtain ⟨k, v⟩ := e
      have hrest := List.pairwise_cons.mp h
      have hless := ranks_caseKey k name
      have hgreater := ranks_caseKey name k
      simp only [find]
      split
      · rename_i hlt
        have hne : strcaseEq k name = false := by
          rw [← Bool.not_eq_true, strcaseEq_iff]
          exact ne_of_lt (hless.mp hlt)
        rw [List.filter_cons_of_neg (by simp [hne])]
        exact ih hrest.2
      · rename_i hle
        -- no later name is the same
        have hlater : caseKey name ≤ caseKey k →
            rest.filter (fun i => strcaseEq i.1 name) = [] := by
          intro hname
          rw [List.filter_eq_nil_iff]
          intro i hi
          rw [strcaseEq_iff]
          exact ne_of_gt (hname.trans_lt (hrest.1 i hi))
        have hname : caseKey name ≤ caseKey k := not_lt.mp (mt hless.mpr hle)
        split
        · rename_i hgt
          have hne : strcaseEq k name = false := by
            rw [← Bool.not_eq_true, strcaseEq_iff]
            exact ne_of_gt (hgreater.mp hgt)
          rw [List.filter_cons_of_neg (by simp [hne]), hlater hname]
          exact ⟨[], rfl⟩
        · rename_i hge
          have heq : strcaseEq k name = true := by
            rw [strcaseEq_iff]
            exact le_antisymm (not_lt.mp (mt hgreater.mpr hge)) hname
          rw [List.filter_cons_of_pos (by simpa using heq), hlater hname]
          exact ⟨k, rfl⟩

end HeaderMap

/-- `token`: one or more token characters. -/
def isToken (l : List UInt8) : Bool := l ≠ [] && l.all fun c => token c ≠ 0

/-- The value of a header: no line end in it, and no blank at either end. -/
def isFieldText (l : List UInt8) : Bool :=
  l.all (fun c => c ≠ CR && c ≠ LF) && l.head?.all (!isBlank ·) && l.getLast?.all (!isBlank ·)

/-! ## Responses -/

/-- `HTTP_STATUS_MAP`. -/
def httpStatusMap : List (Nat × String) :=
  [(100, "Continue"), (101, "Switching Protocols"), (102, "Processing"), (200, "OK"),
    (201, "Created"), (202, "Accepted"), (203, "Non-Authoritative Information"),
    (204, "No Content"), (205, "Reset Content"), (206, "Partial Content"), (207, "Multi-Status"),
    (208, "Already Reported"), (226, "IM Used"), (300, "Multiple Choices"),
    (301, "Moved Permanently"), (302, "Found"), (303, "See Other"), (304, "Not Modified"),
    (305, "Use Proxy"), (307, "Temporary Redirect"), (308, "Permanent Redirect"),
    (400, "Bad Request"), (401, "Unauthorized"), (402, "Payment Required"), (403, "Forbidden"),
    (404, "Not Found"), (405, "Method Not Allowed"), (406, "Not Acceptable"),
    (407, "Proxy Authentication Required"), (408, "Request Timeout"), (409, "Conflict"),
    (410, "Gone"), (411, "Length Required"), (412, "Precondition Failed"),
    (413, "Payload Too Large"), (414, "URI Too Long"), (415, "Unsupported Media Type"),
    (416, "Range Not Satisfiable"), (417, "Expectation Failed"), (421, "Misdirected Request"),
    (422, "Unprocessable Entity"), (423, "Locked"), (424, "Failed Dependency"),
    (426, "Upgrade Required"), (428, "Precondition Required"), (429, "Too Many Requests"),
    (431, "Request Header Fields Too Large"), (451, "Unavailable For Legal Reasons"),
    (500, "Internal Server Error"), (501, "Not Implemented"), (502, "Bad Gateway"),
    (503, "Service Unavailable"), (504, "Gateway Timeout"), (505, "HTTP Version Not Supported"),
    (506, "Variant Also Negotiates"), (507, "Insufficient Storage"), (508, "Loop Detected"),
    (510, "Not Extended"), (511, "Network Authentication Required")]

/-- `HttpStatusToString`. -/
def httpStatusToString (s : Nat) : String := (httpStatusMap.lookup s).getD "<unknown>"

def crlf : List UInt8 := [CR, LF]

/-- `name << ": " << value << "\r\n"`. -/
def headerLine (name value : List UInt8) : List UInt8 := name ++ bytes ": " ++ value ++ crlf

/-- `(m_close ? "close" : "keep-alive")`. -/
def closeText (close : Bool) : List UInt8 := bytes (if close then "close" else "keep-alive")

/-- `HttpResponse::dump`. -/
def HttpResponse.dump (r : HttpResponse) : List UInt8 :=
  bytes "HTTP/" ++ decimal (r.version >>> 4) ++ bytes "." ++ decimal (r.version &&& 0x0F) ++
  bytes " " ++ decimal r.status ++ bytes " " ++
  (if r.reason = [] then bytes (httpStatusToString r.status) else r.reason) ++ crlf ++
  (r.headers.flatMap fun i =>
    if !r.websocket && strcaseEq i.1 (bytes "connection") then [] else headerLine i.1 i.2) ++
  (r.cookies.flatMap fun i => headerLine (bytes "Set-Cookie") i) ++
  (if !r.websocket then headerLine (bytes "connection") (closeText r.close) else []) ++
  if r.body ≠ [] then headerLine (bytes "content-length") (decimal r.body.length) ++ crlf ++ r.body
  else crlf

/-! ## Requests -/

/-- `HttpRequest::dump`. -/
def HttpRequest.dump (r : HttpRequest) : List UInt8 :=
  bytes (httpMethodToString r.method) ++ bytes " " ++ r.path ++
  (if r.query = [] then [] else bytes "?") ++ r.query ++
  (if r.fragment = [] then [] else bytes "#") ++ r.fragment ++
  bytes " HTTP/" ++ decimal (r.version >>> 4) ++ bytes "." ++ decimal (r.version &&& 0x0F) ++
  crlf ++
  (if !r.websocket then headerLine (bytes "connection") (closeText r.close) else []) ++
  (r.headers.flatMap fun i =>
    if !r.websocket && strcaseEq i.1 (bytes "connection") then []
    else if r.body ≠ [] && strcaseEq i.1 (bytes "content-length") then []
    else headerLine i.1 i.2) ++
  if r.body ≠ [] then headerLine (bytes "content-length") (decimal r.body.length) ++ crlf ++ r.body
  else crlf

/-! ## Header lines -/

/-- Header lines one after the other. -/
def headerLines (fields : List (List UInt8 × List UInt8)) : List UInt8 :=
  fields.flatMap fun i => headerLine i.1 i.2

theorem headerLines_append (l r : List (List UInt8 × List UInt8)) :
    headerLines (l ++ r) = headerLines l ++ headerLines r := List.flatMap_append

/-- Skipping an entry in the loop over the header map. -/
theorem headerLines_filter (p : List UInt8 × List UInt8 → Bool)
    (fields : List (List UInt8 × List UInt8)) :
    headerLines (fields.filter p) =
      fields.flatMap fun i => if p i then headerLine i.1 i.2 else [] := by
  induction fields with
  | nil => rfl
  | cons i rest ih =>
      rw [List.flatMap_cons, ← ih]
      cases hp : p i with
      | false => simp [hp]
      | true => simp [hp, headerLines]

/-- The `content-length` line of a body. -/
def lengthField (body : List UInt8) : List (List UInt8 × List UInt8) :=
  if body = [] then [] else [(bytes "content-length", decimal body.length)]

/-- The header lines of a response. -/
def HttpResponse.fields (r : HttpResponse) : List (List UInt8 × List UInt8) :=
  r.headers.filter (fun i => !strcaseEq i.1 (bytes "connection")) ++
    r.cookies.map (fun i => (bytes "Set-Cookie", i)) ++
    [(bytes "connection", closeText r.close)]

/-- The line before them. -/
def HttpResponse.statusLine (r : HttpResponse) : List UInt8 :=
  bytes "HTTP/" ++ decimal (r.version >>> 4) ++ bytes "." ++ decimal (r.version &&& 0x0F) ++
  bytes " " ++ decimal r.status ++ bytes " " ++
  (if r.reason = [] then bytes (httpStatusToString r.status) else r.reason)

/-- The lines that `dump` writes between the status line and the length of the body. -/
def HttpResponse.printedFields (r : HttpResponse) : List (List UInt8 × List UInt8) :=
  r.headers.filter (fun i => r.websocket || !strcaseEq i.1 (bytes "connection")) ++
    r.cookies.map (fun i => (bytes "Set-Cookie", i)) ++
    if r.websocket then [] else [(bytes "connection", closeText r.close)]

theorem HttpResponse.printedFields_eq {r : HttpResponse} (h : r.websocket = false) :
    r.printedFields = r.fields := by
  unfold printedFields fields
  rw [h]
  rfl

theorem HttpResponse.dump_printed (r : HttpResponse) :
    r.dump = r.statusLine ++ crlf ++ headerLines (r.printedFields ++ lengthField r.body) ++ crlf ++
      r.body := by
  have hcookies : headerLines (r.cookies.map fun i => (bytes "Set-Cookie", i)) =
      r.cookies.flatMap fun i => headerLine (bytes "Set-Cookie") i := by
    rw [headerLines, List.flatMap_map]
  have hheaders : headerLines
      (r.headers.filter fun i => r.websocket || !strcaseEq i.1 (bytes "connection")) =
      r.headers.flatMap fun i =>
        if !r.websocket && strcaseEq i.1 (bytes "connection") then [] else headerLine i.1 i.2 := by
    rw [headerLines_filter]
    congr 1
    funext i
    cases r.websocket <;> cases strcaseEq i.1 (bytes "connection") <;> rfl
  unfold dump statusLine printedFields
  simp only [headerLines_append, hcookies, hheaders]
  by_cases hbody : r.body = []
  · cases hws : r.websocket <;> simp [hbody, lengthField, headerLines]
  · cases hws : r.websocket <;> simp [hbody, lengthField, headerLines]

theorem HttpResponse.dump_eq {r : HttpResponse} (h : r.websocket = false) :
    r.dump = r.statusLine ++ crlf ++ headerLines (r.fields ++ lengthField r.body) ++ crlf ++
      r.body := by
  rw [dump_printed, printedFields_eq h]

/-- The header lines of a request. -/
def HttpRequest.fields (r : HttpRequest) : List (List UInt8 × List UInt8) :=
  (bytes "connection", closeText r.close) ::
    r.headers.filter fun i => !strcaseEq i.1 (bytes "connection") &&
      !(r.body ≠ [] && strcaseEq i.1 (bytes "content-length"))

/-- Path, query and fragment. -/
def HttpRequest.target (r : HttpRequest) : List UInt8 :=
  r.path ++ (if r.query = [] then [] else bytes "?") ++ r.query ++
  (if r.fragment = [] then [] else bytes "#") ++ r.fragment

/-- The line before the header lines. -/
def HttpRequest.requestLine (r : HttpRequest) : List UInt8 :=
  bytes (httpMethodToString r.method) ++ bytes " " ++ r.target ++
  bytes " HTTP/" ++ decimal (r.version >>> 4) ++ bytes "." ++ decimal (r.version &&& 0x0F)

theorem HttpRequest.dump_eq {r : HttpRequest} (h : r.websocket = false) :
    r.dump = r.requestLine ++ crlf ++ headerLines (r.fields ++ lengthField r.body) ++ crlf ++
      r.body := by
  have hheaders : headerLines (r.headers.filter fun i => !strcaseEq i.1 (bytes "connection") &&
      !(r.body ≠ [] && strcaseEq i.1 (bytes "content-length"))) =
      r.headers.flatMap fun i =>
        if !r.websocket && strcaseEq i.1 (bytes "connection") then []
        else if r.body ≠ [] && strcaseEq i.1 (bytes "content-length") then []
        else headerLine i.1 i.2 := by
    rw [headerLines_filter]
    congr 1
    funext i
    cases strcaseEq i.1 (bytes "connection") <;>
      cases strcaseEq i.1 (bytes "content-length") <;> simp [h]
  unfold dump requestLine target fields
  rw [headerLines_append, ← List.singleton_append, headerLines_append, hheaders]
  by_cases hbody : r.body = []
  · simp [hbody, h, lengthField, headerLines]
  · simp [hbody, h, lengthField, headerLines]

end Gxh.Http
