import Mathlib.Data.List.TakeWhile
import Gxh.HttpParser.ResponseRun
import Gxh.Lib.Bytes
import Gxh.Http.Dump
import Gxh.Http.Server

/-!
# Reading a response

`HttpConnection::recvResponse` over the bytes of a connection, and what becomes of a response
that `HttpSession::sendResponse` has written when it arrives in one read.

The loop of `recvResponse` ends with a response only after a call of the parser. A response
without a body goes without a `content-length`, so that `http_parser` waits for the end of the
stream to complete it; the loop takes that end, a read of nothing, for a failure.
-/

namespace Gxh.Http

open HttpParser

/-- The loop of `HttpConnection::recvResponse`. Every way out with `none` closes the
connection. -/
def recvResponseLoop (buff_size : Nat) (parser : HttpResponseParser) (data incoming : List UInt8) :
    List Nat → Option HttpResponse
  | [] => none
  | n :: reads =>
      let len := min n (min (buff_size - data.length) incoming.length)
      if len = 0 then none
      else
        let data := data ++ incoming.take len
        let incoming := incoming.drop len
        let (parser, nparse) := parser.execute data
        if parser.hasError then none
        else
          let data := data.drop nparse
          if data.length = toInt buff_size then none
          else if parser.isFinished then some parser.getData
          else recvResponseLoop buff_size parser data incoming reads

def recvResponse (buff_size : Nat) (sock : Socket) : Option HttpResponse :=
  recvResponseLoop buff_size .new [] sock.incoming sock.reads

/-! ## The header lines -/

/-- What the header callbacks of a response write. -/
theorem response_listens : responseSettings.Listens
    (fun l s => { s with field := l })
    (fun l s => { s with data := s.data.setHeader s.field l }) where
  field := fun _ _ _ => rfl
  value := fun _ _ _ => rfl

section HeaderLines

variable {σ : Type} {settings : Settings σ} {field value : List UInt8 → σ → σ}

/-- A header line that `http_parser` does not frame the message by. -/
structure FreeLine (i : List UInt8 × List UInt8) : Prop where
  name : isToken i.1 = true
  length : caseKey i.1 ≠ caseKey (bytes "content-length")
  coding : caseKey i.1 ≠ caseKey (bytes "transfer-encoding")
  value : ∀ c ∈ i.2, c ≠ CR ∧ c ≠ LF

theorem freeLine_mk {name v : List UInt8}
    (h : isToken name = true ∧ caseKey name ≠ caseKey (bytes "content-length") ∧
      caseKey name ≠ caseKey (bytes "transfer-encoding")) (hv : ∀ c ∈ v, c ≠ CR ∧ c ≠ LF) :
    FreeLine (name, v) := ⟨h.1, h.2.1, h.2.2, hv⟩

theorem isToken_iff {l : List UInt8} : isToken l = true ↔ l ≠ [] ∧ ∀ c ∈ l, token c ≠ 0 := by
  simp [isToken]

theorem tolower_token : ∀ c : UInt8, token c ≠ 0 → c ≠ 0 ∧ tolower c = token c :=
  forall_byte (by decide +kernel)

/-- On a token, `strcasecmp` sees what the parser sees. -/
theorem caseKey_token {l : List UInt8} (h : ∀ c ∈ l, token c ≠ 0) :
    caseKey l = (l.map token).map UInt8.toNat := by
  have hnul : 0 ∉ l := fun hc => (tolower_token 0 (h 0 hc)).1 rfl
  rw [caseKey, cStr_of_not_mem hnul, List.map_map]
  apply List.map_congr_left
  intro c hc
  show (tolower c).toNat = (token c).toNat
  rw [(tolower_token c (h c hc)).2]

/-- Two names the parser tells from each other are different headers. -/
theorem map_token_ne {l : List UInt8} (hl : ∀ c ∈ l, token c ≠ 0) {w : String}
    (hw : (bytes w).map token = bytes w ∧ ∀ c ∈ bytes w, token c ≠ 0)
    (h : caseKey l ≠ caseKey (bytes w)) : l.map token ≠ bytes w := by
  intro heq
  apply h
  rw [caseKey_token hl, caseKey_token hw.2, heq, hw.1]

/-- The state of the callbacks' object after header lines. -/
def readLines (field value : List UInt8 → σ → σ) (u : σ) (fields : List (List UInt8 × List UInt8)) :
    σ :=
  fields.foldl (fun u i => value (onWire i.2) (field i.1 u)) u

theorem headerLine_eq (name v : List UInt8) :
    headerLine name v = name ++ (':' : UInt8) :: ((' ' : UInt8) :: v ++ [CR, LF]) := by
  simp [headerLine, crlf, bytes]

theorem length_headerLine (name v : List UInt8) :
    (headerLine name v).length = name.length + ((' ' : UInt8) :: v).length + 3 := by
  simp [headerLine, crlf, bytes]
  omega

/-- Header lines one after the other, from the start of a line. -/
theorem reads_headerLines (hset : settings.Listens field value) {e : Exec σ} {p : Parser} {u : σ}
    {fields : List (List UInt8 × List UInt8)} (hfields : ∀ i ∈ fields, FreeLine i)
    (hstart : LineStart settings e p u) (hs : p.state = .s_header_field_start)
    (hstrict : p.lenient_http_headers = false) (hn : p.nread ≤ maxHeaderSize)
    (hsmall : p.nread + (headerLines fields).length < 2 ^ 32) :
    Reads settings e (headerLines fields)
      ((∀ i ∈ fields, goodValue i.2 = true) ∧
        p.nread + (headerLines fields).length ≤ maxHeaderSize) fun e' =>
        ∃ p', p'.core = p.core.put .s_header_field_start (p.nread + (headerLines fields).length) ∧
          LineStart settings e' p' (readLines field value u fields) := by
  induction fields generalizing e p u with
  | nil =>
      have hcore : p.core = p.core.put .s_header_field_start (p.nread + 0) := by
        rw [← hs]
        rfl
      refine (Reads.nil ⟨p, hcore, hstart⟩).conseq ?_ fun _ _ h => h
      exact ⟨fun _ => ⟨fun _ h => (List.not_mem_nil h).elim, hn⟩, fun _ => trivial⟩
  | cons i rest ih =>
      obtain ⟨name, v⟩ := i
      have hi := hfields (name, v) List.mem_cons_self
      obtain ⟨hne, htoken⟩ := isToken_iff.mp hi.name
      have hlen := length_headerLine name v
      have hcons : headerLines ((name, v) :: rest) = headerLine name v ++ headerLines rest := rfl
      rw [hcons, List.length_append] at hsmall ⊢
      -- the blank behind the colon is not part of the value
      have hgood : goodValue ((' ' : UInt8) :: v) = goodValue v := rfl
      have hwire : onWire ((' ' : UInt8) :: v) = onWire v := rfl
      have hv : ∀ c ∈ (' ' : UInt8) :: v, c ≠ CR ∧ c ≠ LF := by
        intro c hc
        rcases List.mem_cons.mp hc with rfl | hmem
        · decide
        · exact hi.value c hmem
      have hline := reads_line (u := u) hset hne htoken
        (map_token_ne htoken ⟨by decide, List.all_iff_forall_prop.mp (by decide)⟩ hi.length)
        (map_token_ne htoken ⟨by decide, List.all_iff_forall_prop.mp (by decide)⟩ hi.coding) hv hs
        hstrict hn (by rw [← hlen]; omega)
      rw [← headerLine_eq, ← hlen, hgood, hwire] at hline
      obtain ⟨c, cs, rfl⟩ := List.exists_cons_of_ne_nil hne
      have hblank : isBlank c = false := by
        rw [← Bool.not_eq_true, isBlank_iff]
        rintro (rfl | rfl)
        · exact htoken _ List.mem_cons_self (by decide)
        · exact htoken _ List.mem_cons_self (by decide)
      refine (hstart.reads hblank hline).seq ?_ (d := (∀ i ∈ rest, goodValue i.2 = true) ∧
        p.nread + ((headerLine (c :: cs) v).length + (headerLines rest).length) ≤ maxHeaderSize) ?_
      · rintro ⟨-, hroom⟩ e' ⟨p', hcore, hstart'⟩
        have hnread : p'.nread = p.nread + (headerLine (c :: cs) v).length :=
          congrArg Parser.nread hcore
        have hstrict' : p'.lenient_http_headers = false :=
          (congrArg Parser.lenient_http_headers hcore).trans hstrict
        have hread := ih (fun x hx => hfields x (List.mem_cons_of_mem _ hx)) hstart'
          (congrArg Parser.state hcore) hstrict' (by omega) (by omega)
        rw [hnread, hcore, Parser.put_put, Nat.add_assoc] at hread
        exact hread
      · constructor
        · rintro ⟨⟨hgood, -⟩, hrest, hroom⟩
          refine ⟨fun x hx => ?_, hroom⟩
          rcases List.mem_cons.mp hx with rfl | hmem
          · exact hgood
          · exact hrest x hmem
        · rintro ⟨hall, hroom⟩
          exact ⟨⟨hall _ List.mem_cons_self, by omega⟩,
            fun x hx => hall x (List.mem_cons_of_mem _ hx), hroom⟩

theorem readLines_append (field value : List UInt8 → σ → σ) (u : σ)
    (l r : List (List UInt8 × List UInt8)) :
    readLines field value u (l ++ r) = readLines field value (readLines field value u l) r :=
  List.foldl_append

theorem onWire_decimal (n : Nat) : onWire (decimal n) = decimal n := by
  cases hdec : decimal n with
  | nil => rfl
  | cons c rest =>
      obtain ⟨d, hd, rfl⟩ := digit_of_mem_decimal (hdec ▸ List.mem_cons_self : c ∈ decimal n)
      have hblank : ∀ d < 10, isBlank (digit d) = false := by decide
      rw [onWire, List.dropWhile_cons_of_neg (by simp [hblank d hd])]

/-- The parser when the length of the body has been told it. -/
def framed (p : Parser) (body : List UInt8) : Parser :=
  if body = [] then p else p.withLength body.length

theorem framed_put (p : Parser) (body : List UInt8) (s : State) (n : Nat) :
    (framed p body).put s n = { p with
      content_length := (framed p body).content_length
      flags := (framed p body).flags
      state := s
      nread := n } := by
  unfold framed
  split <;> rfl

/-- The `content-length` line, for a body that has one. -/
theorem reads_lengthField (hset : settings.Listens field value) {e : Exec σ} {p : Parser} {u : σ}
    {body : List UInt8} (hstart : LineStart settings e p u) (hs : p.state = .s_header_field_start)
    (hflag : p.flags.F_CONTENTLENGTH = false) (hstrict : p.lenient_http_headers = false)
    (hn : p.nread ≤ maxHeaderSize) (hbody : body.length < 2 ^ 32)
    (hsmall : p.nread + (headerLines (lengthField body)).length < 2 ^ 32) :
    Reads settings e (headerLines (lengthField body))
      (p.nread + (headerLines (lengthField body)).length ≤ maxHeaderSize) fun e' =>
        ∃ p', p'.core = (framed p.core body).put .s_header_field_start
            (p.nread + (headerLines (lengthField body)).length) ∧
          LineStart settings e' p' (readLines field value u (lengthField body)) := by
  unfold lengthField framed at *
  split
  · have hcore : p.core = p.core.put .s_header_field_start (p.nread + 0) := by
      rw [← hs]
      rfl
    exact (Reads.nil ⟨p, hcore, hstart⟩).conseq ⟨fun _ => hn, fun _ => trivial⟩ fun _ _ h => h
  · rename_i hne
    rw [if_neg hne] at hsmall
    have hone : headerLines [(bytes "content-length", decimal body.length)] =
        bytes "content-length" ++ [(':' : UInt8)] ++
          ([(' ' : UInt8)] ++ (decimal body.length ++ [CR, LF])) := by
      simp [headerLines, headerLine, crlf,
        show bytes ": " = [(':' : UInt8), (' ' : UInt8)] by decide]
    have hlen : (headerLines [(bytes "content-length", decimal body.length)]).length =
        (decimal body.length).length + 18 := by
      rw [hone]
      simp [show (bytes "content-length").length = 14 by decide]
      omega
    rw [hlen] at hsmall ⊢
    have hread := reads_lengthLine (u := u) hset hs hflag hstrict hn hbody hsmall
    rw [← hone] at hread
    have hwire : readLines field value u [(bytes "content-length", decimal body.length)] =
        value (decimal body.length) (field (bytes "content-length") u) := by
      show value (onWire (decimal body.length)) (field (bytes "content-length") u) = _
      rw [onWire_decimal]
    rw [hwire]
    have hfirst : headerLines [(bytes "content-length", decimal body.length)] =
        ('c' : UInt8) :: (headerLines [(bytes "content-length", decimal body.length)]).tail := rfl
    rw [hfirst] at hread ⊢
    exact hstart.reads (by decide) hread

end HeaderLines

/-! ## Responses on their way -/

namespace HttpResponse

/-- A response as a servlet may leave it: not a websocket one, of a status that goes with a body,
and with headers that are well formed and do not frame it. -/
structure Plain (r : HttpResponse) : Prop where
  websocket : r.websocket = false
  status : ¬ (r.status / 100 = 1 ∨ r.status = 204 ∨ r.status = 304)
  sorted : r.headers.Sorted
  names : ∀ i ∈ r.headers, isToken i.1 = true
  values : ∀ i ∈ r.headers, isFieldText i.2 = true
  length : ∀ i ∈ r.headers, strcaseEq i.1 (bytes "content-length") = false
  coding : ∀ i ∈ r.headers, strcaseEq i.1 (bytes "transfer-encoding") = false

/-- The reason and the cookies have no line end in them. -/
structure OneLine (r : HttpResponse) : Prop where
  reason : ∀ c ∈ r.reason, c ≠ CR ∧ c ≠ LF
  cookies : ∀ k ∈ r.cookies, ∀ c ∈ k, c ≠ CR ∧ c ≠ LF

/-- `r'` is what `r` should arrive as: it has every header of `r`, and no other but those that
`dump` adds. -/
structure Same (r r' : HttpResponse) : Prop where
  status : r'.status = r.status
  version : r'.version = r.version
  body : r'.body = r.body
  headers : ∀ k v, r.headers.find k = some v → r'.headers.find k = some v
  only : ∀ k v, r'.headers.find k = some v → r.headers.find k = some v ∨
    strcaseEq k (bytes "connection") = true ∨ strcaseEq k (bytes "content-length") = true ∨
    strcaseEq k (bytes "set-cookie") = true ∧ r.cookies ≠ []

/-- The response arrives: its bytes come in one read, and then the connection closes. -/
def Delivered (buff_size : Nat) (r : HttpResponse) : Prop :=
  ∃ r', recvResponse buff_size ⟨r.dump, [r.dump.length]⟩ = some r' ∧ r.Same r'

/-- What `http_parser` accepts of what `dump` writes. -/
structure Accepted (r : HttpResponse) : Prop where
  version : r.version >>> 4 < 10 ∧ r.version &&& 0x0F < 10
  status : r.status < 1000
  headers : ∀ i ∈ r.headers, strcaseEq i.1 (bytes "connection") = false → goodValue i.2 = true
  cookies : ∀ k ∈ r.cookies, goodValue k = true
  head : r.dump.length ≤ maxHeaderSize + r.body.length

/-- When a response is read as it was written. -/
structure Readable (buff_size : Nat) (r : HttpResponse) : Prop extends r.Accepted where
  body : r.body ≠ []
  buffer : buff_size % 2 ^ 32 ≠ 0
  connection : ∀ v, r.headers.find (bytes "connection") = some v → v = closeText r.close
  setCookie : ∀ v k, r.headers.find (bytes "set-cookie") = some v → r.cookies.getLast? = some k →
    v = onWire k

variable {r : HttpResponse}

/-! ## The head -/

/-- What stands behind the status code. -/
def reasonText (r : HttpResponse) : List UInt8 :=
  if r.reason = [] then bytes (httpStatusToString r.status) else r.reason

/-- The texts of the statuses are not empty, and none has a line end. -/
theorem httpStatusToString_text (status : Nat) : bytes (httpStatusToString status) ≠ [] ∧
    ∀ c ∈ bytes (httpStatusToString status), c ≠ CR ∧ c ≠ LF := by
  have htable : ∀ i ∈ httpStatusMap, bytes i.2 ≠ [] ∧
      ((bytes i.2).all fun c => c ≠ CR ∧ c ≠ LF) = true := by
    decide +kernel
  unfold httpStatusToString
  cases hlookup : httpStatusMap.lookup status with
  | none => exact ⟨by decide, List.all_iff_forall_prop.mp (by decide)⟩
  | some text =>
      obtain ⟨l, k, heq, -⟩ := List.lookup_eq_some_iff.mp hlookup
      have hi := htable (status, text) (by rw [heq]; simp)
      exact ⟨hi.1, List.all_iff_forall_prop.mp hi.2⟩

theorem reasonText_ne_nil (r : HttpResponse) : r.reasonText ≠ [] := by
  unfold reasonText
  split
  · exact (httpStatusToString_text r.status).1
  · assumption

theorem OneLine.text (h : r.OneLine) : ∀ c ∈ r.reasonText, c ≠ CR ∧ c ≠ LF := by
  unfold reasonText
  split
  · exact (httpStatusToString_text r.status).2
  · exact h.reason

theorem closeText_good (close : Bool) : goodValue (closeText close) = true ∧
    onWire (closeText close) = closeText close ∧ ∀ c ∈ closeText close, c ≠ CR ∧ c ≠ LF := by
  cases close with
  | true => exact ⟨by decide, by decide, List.all_iff_forall_prop.mp (by decide)⟩
  | false => exact ⟨by decide, by decide, List.all_iff_forall_prop.mp (by decide)⟩

theorem isFieldText_noLineEnd {l : List UInt8} (h : isFieldText l = true) :
    ∀ c ∈ l, c ≠ CR ∧ c ≠ LF := by
  unfold isFieldText at h
  simp only [Bool.and_eq_true, List.all_eq_true, decide_eq_true_eq] at h
  exact fun c hc => by simpa using h.1.1 c hc

/-- A value without a blank before it arrives as it is. -/
theorem onWire_fieldText {l : List UInt8} (h : isFieldText l = true) : onWire l = l := by
  cases l with
  | nil => rfl
  | cons c cs =>
      have hc : isBlank c = false := by
        unfold isFieldText at h
        simp only [Bool.and_eq_true] at h
        simpa using h.1.2
      rw [onWire, List.dropWhile_cons_of_neg (by simp [hc])]

theorem Plain.freeLine (h : r.Plain) (hline : r.OneLine) : ∀ i ∈ r.fields, FreeLine i := by
  intro i hi
  simp only [fields, List.mem_append, List.mem_filter, List.mem_map, List.mem_singleton] at hi
  rcases hi with (⟨hmem, -⟩ | ⟨k, hk, rfl⟩) | rfl
  · refine ⟨h.names i hmem, ?_, ?_, isFieldText_noLineEnd (h.values i hmem)⟩
    · rw [ne_eq, ← strcaseEq_iff, h.length i hmem]
      decide
    · rw [ne_eq, ← strcaseEq_iff, h.coding i hmem]
      decide
  · exact freeLine_mk (by decide) (hline.cookies k hk)
  · exact freeLine_mk (by decide) (closeText_good r.close).2.2

/-- The values `http_parser` looks at. -/
theorem goodValue_fields (r : HttpResponse) :
    (∀ i ∈ r.fields, goodValue i.2 = true) ↔
      (∀ i ∈ r.headers, strcaseEq i.1 (bytes "connection") = false → goodValue i.2 = true) ∧
        ∀ k ∈ r.cookies, goodValue k = true := by
  constructor
  · intro hall
    refine ⟨fun i hi hne => hall i ?_, fun k hk => hall (bytes "Set-Cookie", k) ?_⟩
    · simp only [fields, List.mem_append, List.mem_filter]
      exact .inl (.inl ⟨hi, by rw [hne]; rfl⟩)
    · simp only [fields, List.mem_append, List.mem_map]
      exact .inl (.inr ⟨k, hk, rfl⟩)
  · rintro ⟨hheaders, hcookies⟩ i hi
    simp only [fields, List.mem_append, List.mem_filter, List.mem_map, List.mem_singleton] at hi
    rcases hi with (⟨hmem, hne⟩ | ⟨k, hk, rfl⟩) | rfl
    · exact hheaders i hmem (by simpa using hne)
    · exact hcookies k hk
    · exact (closeText_good r.close).1

/-- The header map a client builds from header lines. -/
def readMap (m : HeaderMap) (fields : List (List UInt8 × List UInt8)) : HeaderMap :=
  fields.foldl (fun m i => m.set i.1 (onWire i.2)) m

theorem readMap_append (m : HeaderMap) (l l' : List (List UInt8 × List UInt8)) :
    readMap m (l ++ l') = readMap (readMap m l) l' := List.foldl_append

theorem readMap_one (m : HeaderMap) (k v : List UInt8) :
    readMap m [(k, v)] = m.set k (onWire v) := rfl

theorem readLines_eq (s : Sink HttpResponse) (fields : List (List UInt8 × List UInt8)) :
    ∃ f, readLines (fun l s => { s with field := l })
        (fun l s => { s with data := s.data.setHeader s.field l }) s fields =
      ⟨{ s.data with headers := readMap s.data.headers fields }, s.finished, f⟩ := by
  induction fields generalizing s with
  | nil => exact ⟨s.field, rfl⟩
  | cons i rest ih => exact ih _

/-- What has come of a response when its head is read. -/
def headOf (r : HttpResponse) : HttpResponse :=
  { status := r.status
    version := r.version
    headers := readMap [] (r.fields ++ lengthField r.body) }

theorem version_eq {v : Nat} (h : v >>> 4 < 10) :
    ((v >>> 4) <<< 4 ||| (v &&& 0x0F)) % 2 ^ 8 = v := by
  have hlow : v &&& 0x0F = v % 2 ^ 4 := Nat.and_two_pow_sub_one_eq_mod v 4
  have hlt : v % 2 ^ 4 < 2 ^ 4 := Nat.mod_lt _ (by decide)
  rw [hlow, ← Nat.shiftLeft_add_eq_or_of_lt hlt, Nat.shiftLeft_eq]
  rw [Nat.shiftRight_eq_div_pow] at h ⊢
  omega

/-- The status line with its parts in the order they are read. -/
theorem statusLine_eq (r : HttpResponse) :
    r.statusLine ++ crlf = bytes "HTTP/" ++ (decimal (r.version >>> 4) ++ [('.' : UInt8)]) ++
      (decimal (r.version &&& 0x0F) ++ [(' ' : UInt8)]) ++ (decimal r.status ++ [(' ' : UInt8)]) ++
      (r.reasonText ++ [CR, LF]) := by
  simp [statusLine, reasonText, crlf, show bytes "." = [('.' : UInt8)] by decide,
    show bytes " " = [(' ' : UInt8)] by decide]

/-- How far the parser has come when the status line is read. -/
def statusRead (r : HttpResponse) : Nat := 12 + (decimal r.status).length + r.reasonText.length

theorem length_statusLine (r : HttpResponse) (h : r.version >>> 4 < 10 ∧ r.version &&& 0x0F < 10) :
    (r.statusLine ++ crlf).length = r.statusRead := by
  rw [statusLine_eq, decimal_of_lt h.1, decimal_of_lt h.2, statusRead]
  simp [show (bytes "HTTP/").length = 5 by decide]
  omega

theorem statusRead_le (r : HttpResponse) : r.statusRead ≤ (r.statusLine ++ crlf).length := by
  have ha := List.length_pos_iff.mpr (decimal_ne_nil (r.version >>> 4))
  have hb := List.length_pos_iff.mpr (decimal_ne_nil (r.version &&& 0x0F))
  rw [statusLine_eq, statusRead]
  simp only [List.length_append, List.length_cons, List.length_nil,
    show (bytes "HTTP/").length = 5 by decide]
  omega

/-- The status line as `dump` writes it. -/
theorem reads_status (hline : r.OneLine) :
    Reads responseSettings (.between (.init .HTTP_RESPONSE) ⟨{}, false, []⟩)
      (r.statusLine ++ crlf)
      ((r.version >>> 4 < 10 ∧ r.version &&& 0x0F < 10 ∧ r.status < 1000) ∧
        r.statusRead ≤ maxHeaderSize)
      fun e' => ∃ p', p'.core = (Parser.ofStatus (r.version >>> 4) (r.version &&& 0x0F)
          r.status).put .s_header_field_start r.statusRead ∧
        e' = .between p' ⟨{ status := r.status }, false, []⟩ := by
  have hset : ∀ p l u, responseSettings.onData .status p l u =
      ((fun (q : Parser) (s : Sink HttpResponse) =>
        { s with data := { s.data with status := q.status_code } }) p u, 0) := fun _ _ _ => rfl
  have hbegin : ∀ p u, responseSettings.onNotify .message_begin p u = (u, 0) := fun _ _ => rfl
  have hread := reads_statusLine (u := ⟨{}, false, []⟩) r.reasonText_ne_nil hline.text hbegin hset
    (r.version >>> 4) (r.version &&& 0x0F) r.status
  rw [statusLine_eq]
  refine hread.conseq (.refl _) ?_
  rintro - _ ⟨p', q, hcore, hcode, rfl⟩
  refine ⟨p', hcore, ?_⟩
  dsimp only
  rw [hcode]

/-- The header lines, from the start of a line. -/
theorem reads_fields (h : r.Plain) (hline : r.OneLine) {e : Exec (Sink HttpResponse)} {p : Parser}
    (hcore : p.core = (Parser.ofStatus (r.version >>> 4) (r.version &&& 0x0F) r.status).put
      .s_header_field_start r.statusRead)
    (hstart : LineStart responseSettings e p ⟨{ status := r.status }, false, []⟩)
    (hn : r.statusRead ≤ maxHeaderSize)
    (hsmall : r.statusRead + ((headerLines r.fields).length +
      (headerLines (lengthField r.body)).length) < 2 ^ 32) (hbody : r.body.length < 2 ^ 32) :
    Reads responseSettings e (headerLines r.fields ++ headerLines (lengthField r.body))
      ((∀ i ∈ r.fields, goodValue i.2 = true) ∧ r.statusRead + ((headerLines r.fields).length +
        (headerLines (lengthField r.body)).length) ≤ maxHeaderSize)
      fun e' => ∃ p' f, p'.core = (framed (Parser.ofStatus (r.version >>> 4) (r.version &&& 0x0F)
          r.status) r.body).put .s_header_field_start (r.statusRead +
            ((headerLines r.fields).length + (headerLines (lengthField r.body)).length)) ∧
        LineStart responseSettings e' p'
          ⟨{ status := r.status, headers := readMap [] (r.fields ++ lengthField r.body) },
            false, f⟩ := by
  have hs : p.state = .s_header_field_start := congrArg Parser.state hcore
  have hnread : p.nread = r.statusRead := congrArg Parser.nread hcore
  have hstrict : p.lenient_http_headers = false := congrArg Parser.lenient_http_headers hcore
  have hread := reads_headerLines response_listens (h.freeLine hline) hstart hs hstrict (by omega)
    (by omega)
  rw [hnread, hcore, Parser.put_put] at hread
  refine hread.seq (d := r.statusRead + ((headerLines r.fields).length +
    (headerLines (lengthField r.body)).length) ≤ maxHeaderSize) ?_ ?_
  · rintro ⟨-, hroom⟩ e' ⟨p', hcore', hstart'⟩
    have hs' : p'.state = .s_header_field_start := congrArg Parser.state hcore'
    have hnread' : p'.nread = r.statusRead + (headerLines r.fields).length :=
      congrArg Parser.nread hcore'
    have hstrict' : p'.lenient_http_headers = false := congrArg Parser.lenient_http_headers hcore'
    have hflag' : p'.flags.F_CONTENTLENGTH = false :=
      congrArg (fun p => p.flags.F_CONTENTLENGTH) hcore'
    have hread' := reads_lengthField response_listens hstart' hs' hflag' hstrict' (by omega) hbody
      (by omega)
    rw [hnread', Nat.add_assoc] at hread'
    refine hread'.conseq (.refl _) ?_
    rintro - e'' ⟨p'', hcore'', hstart''⟩
    rw [← readLines_append] at hstart''
    obtain ⟨f, hf⟩ := readLines_eq ⟨{ status := r.status }, false, []⟩
      (r.fields ++ lengthField r.body)
    rw [hf] at hstart''
    refine ⟨p'', f, ?_, hstart''⟩
    rw [hcore'', hcore']
    unfold framed
    split <;> rfl
  · constructor
    · rintro ⟨⟨hgood, -⟩, hroom⟩
      exact ⟨hgood, hroom⟩
    · rintro ⟨hgood, hroom⟩
      exact ⟨⟨hgood, by omega⟩, hroom⟩

theorem Plain.framed (h : r.Plain) {p : Parser} {n : Nat} (hcore : p.core =
    (Http.framed (Parser.ofStatus (r.version >>> 4) (r.version &&& 0x0F) r.status) r.body).put
      .s_header_field_start n) :
    p.Plain (if r.body = [] then ULLONG_MAX else r.body.length) := by
  refine .of_core ?_
  rw [hcore]
  unfold Http.framed
  split
  · exact ⟨rfl, rfl, rfl, rfl, rfl, rfl, h.status, rfl⟩
  · exact ⟨rfl, rfl, rfl, rfl, rfl, rfl, h.status, rfl⟩

/-- The head of a response as `dump` writes it. -/
theorem reads_head (h : r.Plain) (hline : r.OneLine) (hsmall : r.dump.length < 2 ^ 31) :
    Reads responseSettings (.between (.init .HTTP_RESPONSE) ⟨{}, false, []⟩)
      (r.statusLine ++ crlf ++ (headerLines r.fields ++ headerLines (lengthField r.body) ++ crlf))
      r.Accepted
      fun e' => ∃ p' f,
        p'.state = (if r.body = [] then .s_body_identity_eof else .s_body_identity) ∧
        (r.body ≠ [] → p'.content_length = r.body.length) ∧ p'.upgrade = false ∧
        p'.http_errno = .HPE_OK ∧ e' = .between p' ⟨r.headOf, false, f⟩ := by
  have hle := r.statusRead_le
  have hdump : r.dump.length = (r.statusLine ++ crlf).length + (headerLines r.fields).length +
      (headerLines (lengthField r.body)).length + 2 + r.body.length := by
    rw [dump_eq h.websocket, headerLines_append]
    simp only [List.length_append, crlf, List.length_cons, List.length_nil]
    omega
  generalize hN : r.statusRead + ((headerLines r.fields).length +
    (headerLines (lengthField r.body)).length) = N
  have hhead : (r.version >>> 4 < 10 ∧ r.version &&& 0x0F < 10 ∧ r.status < 1000) ∧
      r.statusRead ≤ maxHeaderSize → ∀ e', (∃ p', p'.core = (Parser.ofStatus (r.version >>> 4)
        (r.version &&& 0x0F) r.status).put .s_header_field_start r.statusRead ∧
        e' = Exec.between p' ⟨{ status := r.status }, false, []⟩) →
      Reads responseSettings e' (headerLines r.fields ++ headerLines (lengthField r.body) ++ crlf)
        ((∀ i ∈ r.fields, goodValue i.2 = true) ∧ N + 2 ≤ maxHeaderSize)
        fun e' => ∃ p' f,
          p'.state = (if r.body = [] then .s_body_identity_eof else .s_body_identity) ∧
          (r.body ≠ [] → p'.content_length = r.body.length) ∧ p'.upgrade = false ∧
          p'.http_errno = .HPE_OK ∧ e' = .between p' ⟨r.headOf, false, f⟩ := by
    rintro ⟨⟨hmajor, hminor, -⟩, hroom⟩ _ ⟨p', hcore, rfl⟩
    have hread := reads_fields h hline hcore (.refl _ _) hroom (by omega) (by omega)
    rw [hN] at hread
    refine hread.seq (d := N + 2 ≤ maxHeaderSize) ?_ ?_
    · rintro ⟨-, hroom'⟩ e' ⟨p'', f, hcore', hstart⟩
      have hs : p''.state = .s_header_field_start := congrArg Parser.state hcore'
      have hnread : p''.nread = N := congrArg Parser.nread hcore'
      have hnumbers : p''.http_major = r.version >>> 4 ∧ p''.http_minor = r.version &&& 0x0F ∧
          p''.status_code = r.status := by
        rw [framed_put] at hcore'
        exact ⟨congrArg Parser.http_major hcore', congrArg Parser.http_minor hcore',
          congrArg Parser.status_code hcore'⟩
      have hcomplete : ∀ q : Parser, q.http_major = p''.http_major →
          q.http_minor = p''.http_minor → q.status_code = p''.status_code →
          responseSettings.onNotify .headers_complete q
            ⟨{ status := r.status, headers := readMap [] (r.fields ++ lengthField r.body) },
              false, f⟩ = (⟨r.headOf, false, f⟩, 0) := by
        intro q hmaj hmin hcode
        have hversion : Parser.version q = r.version := by
          unfold Parser.version
          rw [hmaj, hmin, hnumbers.1, hnumbers.2.1, version_eq hmajor]
        unfold headOf
        rw [← hversion, ← hnumbers.2.2, ← hcode]
        rfl
      have hlen : 0 < (if r.body = [] then ULLONG_MAX else r.body.length) := by
        split
        · decide
        · rename_i hne
          exact List.length_pos_iff.mpr hne
      have hend := reads_emptyLine (h.framed hcore') hlen hs (by omega) hcomplete
      rw [hnread] at hend
      refine (hstart.reads (by decide) hend).conseq (.refl _) ?_
      rintro - _ ⟨q, hstate, hlength, hup, herr, rfl⟩
      refine ⟨q, f, hstate.trans ?_, fun hne => ?_, hup, herr, rfl⟩
      · by_cases hbody : r.body = []
        · simp [hbody]
        · have hmax : r.body.length ≠ ULLONG_MAX := by
            unfold ULLONG_MAX
            omega
          simp [hbody, hmax]
      · rw [hlength, if_neg hne]
    · exact ⟨fun h => ⟨h.1.1, h.2⟩, fun h => ⟨⟨h.1, by omega⟩, h.2⟩⟩
  refine (reads_status hline).seq hhead ?_
  rw [goodValue_fields]
  constructor
  · rintro ⟨⟨⟨hmajor, hminor, hstatus⟩, -⟩, ⟨hheaders, hcookies⟩, hroom⟩
    have hlen := r.length_statusLine ⟨hmajor, hminor⟩
    exact ⟨⟨hmajor, hminor⟩, hstatus, hheaders, hcookies, by omega⟩
  · intro hacc
    have hlen := r.length_statusLine hacc.version
    have hroom := hacc.head
    exact ⟨⟨⟨hacc.version.1, hacc.version.2, hacc.status⟩, by omega⟩,
      ⟨hacc.headers, hacc.cookies⟩, by omega⟩

/-! ## The client -/

/-- The head, and the body behind it. -/
theorem dump_append (h : r.Plain) :
    r.dump = (r.statusLine ++ crlf ++ (headerLines r.fields ++
      headerLines (lengthField r.body) ++ crlf)) ++ r.body := by
  rw [dump_eq h.websocket, headerLines_append]
  simp only [List.append_assoc]

/-- What the parser is left with when a whole response has come. -/
theorem parse_dump (h : r.Plain) (hline : r.OneLine) (hsmall : r.dump.length < 2 ^ 31)
    (hacc : r.Accepted) :
    ∃ p' f, parse responseSettings (.between (.init .HTTP_RESPONSE) ⟨{}, false, []⟩) 0 r.dump =
      some ⟨p', ⟨{ r.headOf with body := r.body }, decide (r.body ≠ []), f⟩, r.dump.length⟩ := by
  obtain ⟨_, ⟨p', f, hstate, hlength, hup, herr, rfl⟩, hrun⟩ :=
    (reads_head h hline hsmall).accepts hacc
  have hparse := hrun 0 r.body
  rw [← dump_append h, Nat.zero_add] at hparse
  rw [hparse]
  have hlen := congrArg List.length (dump_append h)
  rw [List.length_append] at hlen
  by_cases hbody : r.body = []
  · -- the parser waits for the end of the stream
    refine ⟨p', f, ?_⟩
    rw [hbody, List.length_nil, Nat.add_zero] at hlen
    rw [hbody, hlen]
    exact if_pos herr
  · rw [if_neg hbody] at hstate
    have hbodyCb : ∀ p l u, responseSettings.onData .body p l u =
        ((fun l (s : Sink HttpResponse) => { s with data := s.data.appendBody l }) l u, 0) :=
      fun _ _ _ => rfl
    have hdone : ∀ p u, responseSettings.onNotify .message_complete p u =
        ((fun s : Sink HttpResponse => { s with finished := true }) u, 0) := fun _ _ => rfl
    obtain ⟨q, -, hq⟩ := parse_body hbodyCb hdone
      (Exec.setMark_between p' ⟨r.headOf, false, f⟩ .body)
      hbody hstate (hlength hbody) hup herr
      (r.statusLine ++ crlf ++ (headerLines r.fields ++ headerLines (lengthField r.body) ++
        crlf)).length
    refine ⟨q, f, ?_⟩
    rw [hq, hlen]
    simp [hbody, HttpResponse.appendBody, headOf]

theorem parse_rejected (h : r.Plain) (hline : r.OneLine) (hsmall : r.dump.length < 2 ^ 31)
    (hacc : ¬r.Accepted) :
    parse responseSettings (.between (.init .HTTP_RESPONSE) ⟨{}, false, []⟩) 0 r.dump = none := by
  rw [dump_append h]
  exact (reads_head h hline hsmall).rejects hacc 0 r.body

/-- One read of a client, and nothing after it. -/
theorem recvResponse_eq {buff_size : Nat} {data : List UInt8} (hne : data ≠ [])
    (hle : data.length ≤ buff_size) :
    recvResponse buff_size ⟨data, [data.length]⟩ =
      (parse responseSettings (.between (.init .HTTP_RESPONSE) ⟨{}, false, []⟩) 0 data).bind
        fun res =>
        if (data.drop res.nparsed).length = toInt buff_size then none
        else if res.user.finished then some res.user.data else none := by
  have hlen : min data.length (min (buff_size - ([] : List UInt8).length) data.length) =
      data.length := by
    rw [List.length_nil, Nat.sub_zero, Nat.min_eq_right hle, Nat.min_self]
  have hpos : data.length ≠ 0 := fun h => hne (List.length_eq_zero_iff.mp h)
  have hstart : (Exec.start (.init .HTTP_RESPONSE) ⟨{}, false, []⟩ : Exec (Sink HttpResponse)) =
      .between (.init .HTTP_RESPONSE) ⟨{}, false, []⟩ := rfl
  have hexec : HttpParser.execute responseSettings (.init .HTTP_RESPONSE) ⟨{}, false, []⟩ data =
      run responseSettings (.between (.init .HTTP_RESPONSE) ⟨{}, false, []⟩) 0 data := by
    unfold HttpParser.execute
    rw [if_neg (by decide), if_neg hne, hstart]
  unfold recvResponse recvResponseLoop
  simp only [hlen, hpos, if_false, List.nil_append, List.take_length, List.drop_length]
  unfold HttpResponseParser.execute MessageParser.executeWith HttpResponseParser.new
    MessageParser.new parse Result.accepted
  rw [hexec]
  generalize run responseSettings (.between (.init .HTTP_RESPONSE) ⟨{}, false, []⟩) 0 data = res
  by_cases hok : res.parser.http_errno = .HPE_OK
  · simp only [MessageParser.hasError, MessageParser.isFinished, MessageParser.getData, hok,
      recvResponseLoop, Bool.false_and, Bool.false_eq_true, if_false, ne_eq, not_true_eq_false,
      decide_false, if_true, Option.bind_some]
    rfl
  · simp [MessageParser.hasError, hok]

/-! ## The headers -/

/-- What is found in the map built from lines with different names. -/
theorem find_readMap {l : List (List UInt8 × List UInt8)}
    (hl : l.Pairwise fun a b => caseKey a.1 ≠ caseKey b.1) (m : HeaderMap) (k v : List UInt8) :
    (readMap m l).find k = some v ↔
      (∃ i ∈ l, caseKey i.1 = caseKey k ∧ onWire i.2 = v) ∨
        (∀ i ∈ l, caseKey i.1 ≠ caseKey k) ∧ m.find k = some v := by
  induction l generalizing m with
  | nil => simp [readMap]
  | cons x rest ih =>
      obtain ⟨hx, hrest⟩ := List.pairwise_cons.mp hl
      rw [show readMap m (x :: rest) = readMap (m.set x.1 (onWire x.2)) rest from rfl, ih hrest,
        HeaderMap.find_set]
      by_cases hk : caseKey x.1 = caseKey k
      · -- no later line has the name
        have hlater : ∀ i ∈ rest, caseKey i.1 ≠ caseKey k := fun i hi h => hx i hi (hk.trans h.symm)
        rw [if_pos hk]
        constructor
        · rintro (⟨i, hi, hik, -⟩ | ⟨-, hv⟩)
          · exact absurd hik (hlater i hi)
          · exact .inl ⟨x, List.mem_cons_self, hk, Option.some.inj hv⟩
        · rintro (⟨i, hi, hik, hv⟩ | ⟨hnone, -⟩)
          · rcases List.mem_cons.mp hi with rfl | hmem
            · exact .inr ⟨hlater, by rw [hv]⟩
            · exact absurd hik (hlater i hmem)
          · exact absurd hk (hnone x List.mem_cons_self)
      · rw [if_neg hk]
        simp only [List.mem_cons, exists_eq_or_imp, forall_eq_or_imp, hk, false_and, false_or,
          ne_eq, not_false_eq_true, true_and]

theorem find_readMap_cookies (cookies : List (List UInt8)) (m : HeaderMap) (k : List UInt8) :
    (readMap m (cookies.map fun i => (bytes "Set-Cookie", i))).find k =
      if caseKey (bytes "Set-Cookie") = caseKey k then
        (cookies.getLast?.map onWire).or (m.find k)
      else m.find k := by
  induction cookies using List.reverseRecOn with
  | nil => simp [readMap]
  | append_singleton front last ih =>
      rw [List.map_append, List.map_singleton, readMap_append, readMap_one, HeaderMap.find_set, ih]
      split
      · simp
      · rfl

/-- The headers of the response itself. -/
theorem Plain.find_own (h : r.Plain) {k : List UInt8}
    (hk : caseKey (bytes "connection") ≠ caseKey k) :
    (readMap [] (r.headers.filter fun i => !strcaseEq i.1 (bytes "connection"))).find k =
      r.headers.find k := by
  have hdistinct : (r.headers.filter fun i => !strcaseEq i.1 (bytes "connection")).Pairwise
      fun a b => caseKey a.1 ≠ caseKey b.1 :=
    (List.Pairwise.sublist List.filter_sublist h.sorted).imp fun hlt => ne_of_lt hlt
  apply Option.ext
  intro v
  rw [find_readMap hdistinct, HeaderMap.find_eq_some_iff h.sorted]
  constructor
  · rintro (⟨i, hi, hik, hv⟩ | ⟨-, hv⟩)
    · have hmem := (List.mem_filter.mp hi).1
      rw [onWire_fieldText (h.values i hmem)] at hv
      exact ⟨i, hmem, hik, hv⟩
    · cases hv
  · rintro ⟨i, hi, hik, hv⟩
    refine .inl ⟨i, List.mem_filter.mpr ⟨hi, ?_⟩, hik, ?_⟩
    · rw [Bool.not_eq_true', ← Bool.not_eq_true, strcaseEq_iff]
      exact fun heq => hk (heq ▸ hik)
    · rw [onWire_fieldText (h.values i hi), hv]

/-- The header a client finds. -/
theorem Plain.find_headOf (h : r.Plain) (hbody : r.body ≠ []) (k : List UInt8) :
    r.headOf.headers.find k =
      if caseKey (bytes "content-length") = caseKey k then some (decimal r.body.length)
      else if caseKey (bytes "connection") = caseKey k then some (closeText r.close)
      else if caseKey (bytes "Set-Cookie") = caseKey k then
        (r.cookies.getLast?.map onWire).or (r.headers.find k)
      else r.headers.find k := by
  have hfields : r.headOf.headers = readMap [] (r.fields ++ lengthField r.body) := rfl
  rw [hfields, lengthField, if_neg hbody, readMap_append, readMap_one, HeaderMap.find_set,
    onWire_decimal]
  split
  · rfl
  · rw [fields, readMap_append, readMap_one, HeaderMap.find_set, (closeText_good r.close).2.1]
    split
    · rfl
    · rename_i hk
      rw [readMap_append, find_readMap_cookies, h.find_own hk]

theorem find_congr {m : HeaderMap} (h : m.Sorted) {k k' : List UInt8}
    (hk : caseKey k = caseKey k') :
    m.find k = m.find k' := by
  apply Option.ext
  intro v
  rw [HeaderMap.find_eq_some_iff h, HeaderMap.find_eq_some_iff h, hk]

/-- The headers that are written twice, once from the header map. -/
theorem Plain.same_iff (h : r.Plain) (hbody : r.body ≠ []) :
    r.Same { r.headOf with body := r.body } ↔
      (∀ v, r.headers.find (bytes "connection") = some v → v = closeText r.close) ∧
        ∀ v k, r.headers.find (bytes "set-cookie") = some v → r.cookies.getLast? = some k →
          v = onWire k := by
  have hcookie : caseKey (bytes "set-cookie") = caseKey (bytes "Set-Cookie") := by decide
  have hfind := h.find_headOf hbody
  constructor
  · intro hsame
    constructor
    · intro v hv
      have hfound := hsame.headers (bytes "connection") v hv
      rw [show ({ r.headOf with body := r.body } : HttpResponse).headers =
        r.headOf.headers from rfl,
        hfind, if_neg (by decide), if_pos rfl] at hfound
      exact (Option.some.inj hfound).symm
    · intro v k hv hk
      have hfound := hsame.headers (bytes "set-cookie") v hv
      rw [show ({ r.headOf with body := r.body } : HttpResponse).headers =
        r.headOf.headers from rfl,
        hfind, if_neg (by decide), if_neg (by decide), if_pos hcookie.symm, hk] at hfound
      exact (Option.some.inj hfound).symm
  · rintro ⟨hconnection, hcookies⟩
    refine ⟨rfl, rfl, rfl, ?_, ?_⟩
    · intro k v hv
      show r.headOf.headers.find k = some v
      rw [hfind]
      split
      · rename_i hk
        obtain ⟨i, hi, hik, -⟩ := (HeaderMap.find_eq_some_iff h.sorted).mp hv
        have := h.length i hi
        rw [← Bool.not_eq_true, strcaseEq_iff] at this
        exact absurd (hik.trans hk.symm) this
      · split
        · rename_i hk
          rw [hconnection v (find_congr h.sorted hk ▸ hv)]
        · split
          · rename_i hk
            cases hlast : r.cookies.getLast? with
            | none => exact hv
            | some c =>
                rw [hcookies v c (find_congr h.sorted (hcookie.trans hk) ▸ hv) hlast]
                rfl
          · exact hv
    · intro k v hv
      rw [show ({ r.headOf with body := r.body } : HttpResponse).headers =
        r.headOf.headers from rfl,
        hfind] at hv
      simp only [strcaseEq_iff]
      split at hv
      · rename_i hk
        exact .inr (.inr (.inl hk.symm))
      · split at hv
        · rename_i hk
          exact .inr (.inl hk.symm)
        · split at hv
          · rename_i hk
            by_cases hnil : r.cookies = []
            · rw [hnil] at hv
              exact .inl hv
            · exact .inr (.inr (.inr ⟨(hcookie.trans hk).symm, hnil⟩))
          · exact .inl hv

end HttpResponse

/-- A response that comes in one read is received as it was sent if and only if it has a body,
`http_parser` takes its head, and no header of its map is written twice with different values. -/
theorem response_delivered {buff_size : Nat} {r : HttpResponse} (h : r.Plain) (hline : r.OneLine)
    (hread : r.dump.length ≤ buff_size) (hsmall : r.dump.length < 2 ^ 31) :
    r.Delivered buff_size ↔ r.Readable buff_size := by
  have hne : r.dump ≠ [] := by
    unfold HttpResponse.dump
    simp [show bytes "HTTP/" ≠ [] by decide]
  unfold HttpResponse.Delivered
  rw [HttpResponse.recvResponse_eq hne hread]
  by_cases hacc : r.Accepted
  · obtain ⟨p', f, hparse⟩ := HttpResponse.parse_dump h hline hsmall hacc
    have hzero : ((r.dump.drop r.dump.length).length : Int) = toInt buff_size ↔
        buff_size % 2 ^ 32 = 0 := by
      rw [List.drop_length, List.length_nil]
      unfold toInt
      split <;> omega
    rw [hparse, Option.bind_some]
    constructor
    · rintro ⟨r', hr', hsame⟩
      split at hr'
      · cases hr'
      · rename_i hbuffer
        by_cases hbody : r.body = []
        · simp [hbody] at hr'
        · rw [if_pos (by simpa using hbody)] at hr'
          cases hr'
          obtain ⟨hconnection, hcookie⟩ := (h.same_iff hbody).mp hsame
          exact ⟨hacc, hbody, mt hzero.mpr hbuffer, hconnection, hcookie⟩
    · intro hr
      rw [if_neg (mt hzero.mp hr.buffer), if_pos (by simpa using hr.body)]
      exact ⟨_, rfl, (h.same_iff hr.body).mpr ⟨hr.connection, hr.setCookie⟩⟩
  · rw [HttpResponse.parse_rejected h hline hsmall hacc]
    constructor
    · rintro ⟨r', hr', -⟩
      cases hr'
    · intro hr
      exact absurd hr.toAccepted hacc

/-- A page with a cookie. -/
def helloPage : HttpResponse where
  close := false
  body := bytes "hello"
  headers := [(bytes "Content-Type", bytes "text/html"), (bytes "Server", bytes "gxh/1.0.0")]
  cookies := [bytes "id=7;path=/"]

theorem plain_helloPage : helloPage.Plain where
  websocket := rfl
  status := by decide
  sorted := by unfold HeaderMap.Sorted OrdMap.Sorted; decide
  names := by decide
  values := by decide
  length := by decide
  coding := by decide

theorem oneLine_helloPage : helloPage.OneLine where
  reason := List.all_iff_forall_prop.mp (by decide)
  cookies := List.forall_mem_singleton.mpr (List.all_iff_forall_prop.mp (by decide))

theorem response_delivered_page : helloPage.Delivered 4096 := by
  have hlen : helloPage.dump.length ≤ 4096 := by decide +kernel
  have hnone : helloPage.headers.find (bytes "connection") = none ∧
      helloPage.headers.find (bytes "set-cookie") = none := by decide
  refine (response_delivered plain_helloPage oneLine_helloPage (by omega) (by omega)).mpr ?_
  refine ⟨⟨by decide, by decide, by decide, by decide, ?_⟩, by decide, by decide, ?_, ?_⟩
  · exact hlen.trans ((show 4096 ≤ maxHeaderSize by decide).trans (Nat.le_add_right _ _))
  · intro v hv
    rw [hnone.1] at hv
    cases hv
  · intro v k hv
    rw [hnone.2] at hv
    cases hv

/-- The same page without its body, as an answer to a request for nothing. -/
def emptyPage : HttpResponse := { helloPage with body := [] }

theorem response_empty_body : emptyPage.Plain ∧ emptyPage.OneLine ∧
    emptyPage.dump.length ≤ 4096 ∧ ¬ emptyPage.Delivered 4096 := by
  refine ⟨⟨rfl, by decide, plain_helloPage.sorted, plain_helloPage.names, plain_helloPage.values,
    plain_helloPage.length, plain_helloPage.coding⟩,
    ⟨oneLine_helloPage.reason, oneLine_helloPage.cookies⟩, by decide +kernel, ?_⟩
  rintro ⟨r', hr', -⟩
  have hnone : recvResponse 4096 ⟨emptyPage.dump, [emptyPage.dump.length]⟩ = none := by
    decide +kernel
  rw [hnone] at hr'
  cases hr'

end Gxh.Http
