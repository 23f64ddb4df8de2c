import Gxh.Lib.Lines
import Gxh.Http.Client
import Gxh.Http.Framing

/-!
# The lines of a printed response

What a client sees of `HttpResponse::dump` when it cuts the text at every CR LF: the lines of the
head up to the empty one, and the rest as the body. The setters take any bytes and `dump` writes
them as they are, so that the lines are those that `dump` means to write exactly if no text in it
has a line end of its own (`splits_right_iff`); and `dump` writes a `content-length` for the body
beside the one that the header map may hold (`content_length_once`).
-/

namespace Gxh.Http

open HttpParser Lines

/-! ## The calls -/

/-- `m.erase(key)`. -/
def HeaderMap.erase (key : List UInt8) (m : HeaderMap) : HeaderMap :=
  OrdMap.erase caseInsensitiveLess key m

namespace HttpResponse

def delHeader (r : HttpResponse) (key : List UInt8) : HttpResponse :=
  { r with headers := r.headers.erase key }

def setReason (r : HttpResponse) (v : List UInt8) : HttpResponse := { r with reason := v }

/-- `HttpStatus::FOUND` and the header. -/
def setRedirect (r : HttpResponse) (uri : List UInt8) : HttpResponse :=
  { r with status := 302 }.setHeader (bytes "Location") uri

/-- What `setCookie` writes. `time2Str` is `Time2Str` with the format
`%a, %d %b %Y %H:%M:%S`, in the time zone of the process. -/
def cookieText (time2Str : Int → List UInt8) (key val : List UInt8) (expired : Int)
    (path domain : List UInt8) (secure : Bool) : List UInt8 :=
  key ++ bytes "=" ++ val ++
  (if 0 < expired then bytes ";expires=" ++ time2Str expired ++ bytes " GMT" else []) ++
  (if domain ≠ [] then bytes ";domain=" ++ domain else []) ++
  (if path ≠ [] then bytes ";path=" ++ path else []) ++
  (if secure then bytes ";secure" else [])

def setCookie (time2Str : Int → List UInt8) (r : HttpResponse) (key val : List UInt8)
    (expired : Int) (path domain : List UInt8) (secure : Bool) : HttpResponse :=
  { r with cookies := r.cookies ++ [cookieText time2Str key val expired path domain secure] }

end HttpResponse

/-! ## The text -/

/-- `name << ": " << value`. -/
def fieldText (i : List UInt8 × List UInt8) : List UInt8 := i.1 ++ bytes ": " ++ i.2

theorem headerLines_eq (fields : List (List UInt8 × List UInt8)) :
    headerLines fields = (fields.map fieldText).flatMap (· ++ crlf) := by
  rw [headerLines, List.flatMap_map]
  rfl

namespace HttpResponse

/-- The texts in front of the line ends of the head. -/
def pieces (r : HttpResponse) : List (List UInt8) :=
  r.statusLine :: r.printedFields.map fieldText

/-- The lines of what `dump` writes. -/
theorem lines_dump (r : HttpResponse) :
    lines CR LF r.dump =
      (r.pieces ++ (lengthField r.body).map fieldText).flatMap (lines CR LF) ++
        [] :: lines CR LF r.body := by
  have hne : CR ≠ LF := by decide
  have hempty : lines CR LF (crlf ++ r.body) = [] :: lines CR LF r.body :=
    lines_append hne [] r.body
  have htext : r.dump = (r.pieces ++ (lengthField r.body).map fieldText).flatMap (· ++ crlf) ++
      (crlf ++ r.body) := by
    rw [dump_printed, headerLines_eq, List.map_append, pieces, List.cons_append,
      List.flatMap_cons]
    simp only [List.append_assoc]
  rw [htext, ← hempty]
  exact lines_pieces hne _ _

end HttpResponse

/-! ## Texts without line ends -/

theorem unbroken_fieldText (x y : List UInt8) :
    unbroken CR LF (fieldText (x, y)) = (unbroken CR LF x && unbroken CR LF y) := by
  have htext : fieldText (x, y) = x ++ (':' : UInt8) :: ([] ++ (' ' : UInt8) :: y) := by
    unfold fieldText
    rw [List.append_assoc]
    rfl
  rw [htext, unbroken_append_cons (by decide) (by decide),
    unbroken_append_cons (by decide) (by decide)]
  rfl

theorem unbroken_decimal (n : Nat) : unbroken CR LF (decimal n) = true :=
  unbroken_of_not_mem (digit_ne (by decide))

theorem lengthField_unbroken (body : List UInt8) :
    ∀ p ∈ (lengthField body).map fieldText, unbroken CR LF p = true := by
  intro p hp
  obtain ⟨i, hi, rfl⟩ := List.mem_map.mp hp
  unfold lengthField at hi
  split at hi
  · cases hi
  · rw [List.mem_singleton.mp hi, unbroken_fieldText, unbroken_decimal, Bool.and_true]
    decide

namespace HttpResponse

variable {r : HttpResponse}

/-- The status line has a line end where its text has one. -/
theorem unbroken_statusLine : unbroken CR LF r.statusLine = unbroken CR LF r.reason := by
  have hdecimal : ∀ n, CR ∉ decimal n := fun n => digit_ne (by decide)
  have hfront : CR ∉ bytes "HTTP/" ++ decimal (r.version >>> 4) ++ bytes "." ++
      decimal (r.version &&& 0x0F) ++ bytes " " ++ decimal r.status := by
    simp only [List.mem_append, not_or]
    exact ⟨⟨⟨⟨⟨by decide, hdecimal _⟩, by decide⟩, hdecimal _⟩, by decide⟩, hdecimal _⟩
  have hline : r.statusLine = (bytes "HTTP/" ++ decimal (r.version >>> 4) ++ bytes "." ++
      decimal (r.version &&& 0x0F) ++ bytes " " ++ decimal r.status) ++
        (' ' : UInt8) :: r.reasonText := by
    unfold statusLine reasonText
    simp only [List.append_assoc]
    rfl
  have hreason : unbroken CR LF r.reasonText = unbroken CR LF r.reason := by
    unfold reasonText
    split
    · rename_i hnil
      rw [hnil]
      exact unbroken_of_not_mem fun hcr => ((httpStatusToString_text r.status).2 CR hcr).1 rfl
    · rfl
  rw [hline, unbroken_append_cons (by decide) (by decide), unbroken_of_not_mem hfront,
    Bool.true_and, hreason]

/-- No text that `dump` writes into the head has a line end: not the reason, nor an entry of the
header map other than `connection`, nor a cookie. -/
structure Unbroken (r : HttpResponse) : Prop where
  reason : unbroken CR LF r.reason = true
  headers : ∀ i ∈ r.headers, strcaseEq i.1 (bytes "connection") = false →
    unbroken CR LF i.1 = true ∧ unbroken CR LF i.2 = true
  cookies : ∀ k ∈ r.cookies, unbroken CR LF k = true

theorem pieces_unbroken_iff (h : r.websocket = false) :
    (∀ p ∈ r.pieces, unbroken CR LF p = true) ↔ r.Unbroken := by
  have hcookie : ∀ k, unbroken CR LF (fieldText (bytes "Set-Cookie", k)) = unbroken CR LF k := by
    intro k
    rw [unbroken_fieldText]
    rfl
  have hclose : unbroken CR LF (fieldText (bytes "connection", closeText r.close)) = true := by
    cases r.close <;> decide
  rw [pieces, List.forall_mem_cons, unbroken_statusLine, printedFields_eq h, List.forall_mem_map]
  unfold fields
  rw [List.forall_mem_append, List.forall_mem_append, List.forall_mem_map,
    List.forall_mem_singleton]
  constructor
  · rintro ⟨hreason, ⟨hheaders, hcookies⟩, -⟩
    refine ⟨hreason, ?_, fun k hk => hcookie k ▸ hcookies k hk⟩
    intro i hi hname
    have htext := hheaders i (List.mem_filter.mpr ⟨hi, by rw [hname]; rfl⟩)
    rwa [unbroken_fieldText, Bool.and_eq_true] at htext
  · rintro ⟨hreason, hheaders, hcookies⟩
    refine ⟨hreason, ⟨?_, fun k hk => (hcookie k).trans (hcookies k hk)⟩, hclose⟩
    intro i hi
    obtain ⟨hmem, hname⟩ := List.mem_filter.mp hi
    rw [unbroken_fieldText, Bool.and_eq_true]
    exact hheaders i hmem (Bool.not_eq_true' _ |>.mp hname)

/-! ## One line for each text -/

/-- The lines that `dump` means to write: the status line, one for each entry of the header map
other than `connection`, one for each cookie, the connection line, and one for the length of a
body. -/
def headLines (r : HttpResponse) : List (List UInt8) :=
  r.statusLine :: (r.fields ++ lengthField r.body).map fieldText

/-- Cut at the line ends, the text is these lines, an empty one, and the body. -/
structure SplitsRight (r : HttpResponse) : Prop where
  head : (splitHead CR LF r.dump).1 = r.headLines
  body : (splitHead CR LF r.dump).2 = r.body

/-- Neither the status line nor a header line is the empty one that ends the head. -/
theorem head_ne_nil (r : HttpResponse) (fields : List (List UInt8 × List UInt8)) :
    ∀ l ∈ r.statusLine :: fields.map fieldText, l ≠ [] := by
  intro l hl
  rcases List.mem_cons.mp hl with rfl | hl
  · exact List.append_ne_nil_of_right_ne_nil _ r.reasonText_ne_nil
  · obtain ⟨i, -, rfl⟩ := List.mem_map.mp hl
    rw [fieldText, List.append_assoc]
    exact List.append_ne_nil_of_right_ne_nil _ (List.cons_ne_nil _ _)

theorem splitsRight_iff (h : r.websocket = false) : r.SplitsRight ↔ r.Unbroken := by
  have hlines := r.lines_dump
  have hhead : r.pieces ++ (lengthField r.body).map fieldText = r.headLines := by
    rw [pieces, headLines, printedFields_eq h, List.map_append, List.cons_append]
  rw [← pieces_unbroken_iff h]
  constructor
  · intro hsplit
    -- where the body comes out whole no line of the head is empty, and they can be compared
    have hne := (splitHead_eq_iff hlines).mp hsplit.body
    have heq := (splitHead_head hlines hne).symm.trans hsplit.head
    rw [hhead] at heq
    intro p hp
    refine (flatMap_lines_eq_iff _).mp heq p ?_
    rw [← hhead]
    exact List.mem_append_left _ hp
  · intro hpieces
    have hall : ∀ p ∈ r.headLines, unbroken CR LF p = true := by
      intro p hp
      rw [← hhead] at hp
      rcases List.mem_append.mp hp with hp | hp
      · exact hpieces p hp
      · exact lengthField_unbroken r.body p hp
    rw [hhead, (flatMap_lines_eq_iff _).mpr hall] at hlines
    exact ⟨splitHead_head hlines (r.head_ne_nil _), (splitHead_eq_iff hlines).mpr (r.head_ne_nil _)⟩

end HttpResponse

/-! ## The setters -/

/-- A call that gives a response a text to print. -/
inductive TextCall
  | setHeader (key val : List UInt8)
  | setCookie (key val : List UInt8) (expired : Int) (path domain : List UInt8) (secure : Bool)
  | setRedirect (uri : List UInt8)
  | setReason (v : List UInt8)
  deriving DecidableEq, Repr

namespace TextCall

variable (time2Str : Int → List UInt8)

def run (r : HttpResponse) : TextCall → HttpResponse
  | setHeader key val => r.setHeader key val
  | setCookie key val expired path domain secure =>
      r.setCookie time2Str key val expired path domain secure
  | setRedirect uri => r.setRedirect uri
  | setReason v => r.setReason v

/-- The response after the calls. -/
def runAll (r : HttpResponse) (calls : List TextCall) : HttpResponse := calls.foldl (run time2Str) r

/-- No argument has a line end, and neither has the time that is printed. -/
def Unbroken : TextCall → Prop
  | setHeader key val => unbroken CR LF key = true ∧ unbroken CR LF val = true
  | setCookie key val expired path domain _ =>
      (unbroken CR LF key = true ∧ unbroken CR LF val = true) ∧
      (0 < expired → unbroken CR LF (time2Str expired) = true) ∧
      unbroken CR LF domain = true ∧ unbroken CR LF path = true
  | setRedirect uri => unbroken CR LF uri = true
  | setReason v => unbroken CR LF v = true

variable {time2Str} {r : HttpResponse} {calls : List TextCall}

theorem run_websocket (r : HttpResponse) (c : TextCall) :
    (c.run time2Str r).websocket = r.websocket := by
  cases c <;> rfl

theorem runAll_websocket (r : HttpResponse) (calls : List TextCall) :
    (runAll time2Str r calls).websocket = r.websocket := by
  induction calls generalizing r with
  | nil => rfl
  | cons c rest ih =>
      show (runAll time2Str (c.run time2Str r) rest).websocket = _
      rw [ih, run_websocket]

end TextCall

namespace HttpResponse

/-- An attribute of a cookie keeps apart what is before its name and behind it. -/
theorem unbroken_attribute {rest : List UInt8} (hrest : CR ∉ rest) (x y : List UInt8) :
    unbroken CR LF (x ++ (';' : UInt8) :: (rest ++ y)) =
      (unbroken CR LF x && unbroken CR LF y) := by
  rw [unbroken_append_cons (by decide) (by decide), unbroken_append_of_not_mem hrest]

/-- An attribute that is left out when it is empty. -/
theorem unbroken_optional {rest : List UInt8} (hrest : CR ∉ rest) (x y : List UInt8) :
    unbroken CR LF (x ++ if y ≠ [] then (';' : UInt8) :: (rest ++ y) else []) =
      (unbroken CR LF x && unbroken CR LF y) := by
  split
  · exact unbroken_attribute hrest x y
  · rename_i hnil
    have hempty : unbroken CR LF ([] : List UInt8) = true := rfl
    rw [List.append_nil, not_not.mp hnil, hempty, Bool.and_true]

/-- A cookie has a line end exactly where one of its parts has. -/
theorem cookieText_unbroken_iff (time2Str : Int → List UInt8) (key val : List UInt8)
    (expired : Int) (path domain : List UInt8) (secure : Bool) :
    unbroken CR LF (cookieText time2Str key val expired path domain secure) = true ↔
      (unbroken CR LF key = true ∧ unbroken CR LF val = true) ∧
      (0 < expired → unbroken CR LF (time2Str expired) = true) ∧
      unbroken CR LF domain = true ∧ unbroken CR LF path = true := by
  have hpair : unbroken CR LF (key ++ bytes "=" ++ val) =
      (unbroken CR LF key && unbroken CR LF val) := by
    rw [List.append_assoc]
    exact unbroken_append_cons (by decide) (by decide) key val
  have htime : ∀ x, unbroken CR LF (x ++ if 0 < expired then
      bytes ";expires=" ++ time2Str expired ++ bytes " GMT" else []) = true ↔
        unbroken CR LF x = true ∧ (0 < expired → unbroken CR LF (time2Str expired) = true) := by
    intro x
    split
    · rename_i hpos
      have hend : unbroken CR LF (time2Str expired ++ bytes " GMT") =
          (unbroken CR LF (time2Str expired) && unbroken CR LF (bytes "GMT")) :=
        unbroken_append_cons (by decide) (by decide) _ _
      have hgmt : unbroken CR LF (bytes "GMT") = true := by decide
      have hrest : CR ∉ bytes "expires=" := by decide
      have hexpires := unbroken_attribute hrest x (time2Str expired ++ bytes " GMT")
      rw [List.append_assoc]
      refine (Bool.eq_iff_iff.mp hexpires).trans ?_
      rw [hend, hgmt, Bool.and_true, Bool.and_eq_true]
      exact and_congr_right fun _ => (imp_iff_right hpos).symm
    · rename_i hpos
      rw [List.append_nil]
      exact (and_iff_left fun h => absurd h hpos).symm
  -- the last attribute has no text of the caller in it
  have hsecure : ∀ x, unbroken CR LF (x ++ if secure then bytes ";secure" else []) =
      unbroken CR LF x := by
    intro x
    have hrest : CR ∉ bytes "secure" := by decide
    have hnil := unbroken_attribute hrest x []
    cases secure with
    | false => exact congrArg _ (List.append_nil x)
    | true =>
        refine hnil.trans ?_
        exact Bool.and_true _
  have hdomain : CR ∉ bytes "domain=" := by decide
  have hpath : CR ∉ bytes "path=" := by decide
  unfold cookieText
  rw [hsecure]
  refine (Bool.eq_iff_iff.mp (unbroken_optional hpath _ path)).trans ?_
  rw [Bool.and_eq_true]
  refine (and_congr_left' (Bool.eq_iff_iff.mp (unbroken_optional hdomain _ domain))).trans ?_
  rw [Bool.and_eq_true, htime, hpair, Bool.and_eq_true, and_assoc, and_assoc]

variable {r : HttpResponse}

theorem Unbroken.setHeader (h : r.Unbroken) {key val : List UInt8}
    (hkey : unbroken CR LF key = true) (hval : unbroken CR LF val = true) :
    (r.setHeader key val).Unbroken := by
  refine ⟨h.reason, ?_, h.cookies⟩
  intro i hi hname
  have hset : i ∈ OrdMap.set caseInsensitiveLess key val r.headers := by
    rw [← HeaderMap.set_eq]
    exact hi
  -- an entry that was there may keep its own spelling of the name
  rcases OrdMap.mem_set_parts hset with hold | ⟨hnew, hk | ⟨v, hv⟩⟩
  · exact h.headers i hold hname
  · rw [hk, hnew]
    exact ⟨hkey, hval⟩
  · rw [hnew]
    exact ⟨(h.headers _ hv hname).1, hval⟩

end HttpResponse

theorem TextCall.run_unbroken {time2Str : Int → List UInt8} {r : HttpResponse} {c : TextCall}
    (hc : c.Unbroken time2Str) (h : r.Unbroken) : (c.run time2Str r).Unbroken := by
  cases c with
  | setHeader key val => exact h.setHeader hc.1 hc.2
  | setReason v => exact ⟨hc, h.headers, h.cookies⟩
  | setRedirect uri =>
      have hfound : { r with status := 302 }.Unbroken := ⟨h.reason, h.headers, h.cookies⟩
      exact hfound.setHeader (by decide) hc
  | setCookie key val expired path domain secure =>
      refine ⟨h.reason, h.headers, ?_⟩
      intro k hk
      rcases List.mem_append.mp hk with hold | hnew
      · exact h.cookies k hold
      · rw [List.mem_singleton.mp hnew]
        exact (HttpResponse.cookieText_unbroken_iff ..).mpr hc

/-- Calls without line ends in their arguments leave none in the response. -/
theorem TextCall.runAll_unbroken {time2Str : Int → List UInt8} {r : HttpResponse}
    {calls : List TextCall} (hcalls : ∀ c ∈ calls, c.Unbroken time2Str) (h : r.Unbroken) :
    (runAll time2Str r calls).Unbroken := by
  induction calls generalizing r with
  | nil => exact h
  | cons c rest ih =>
      obtain ⟨hc, hrest⟩ := List.forall_mem_cons.mp hcalls
      exact ih hrest (run_unbroken hc h)

/-- A response as its constructor leaves it and `setStatus` and `setBody` change it, after any calls
of the setters: cut at the line ends, what `dump` writes is the lines it should be exactly if no
text in the head has a line end of its own. -/
theorem splits_right_iff (time2Str : Int → List UInt8) (version status : Nat) (close : Bool)
    (body : List UInt8) (calls : List TextCall) :
    (TextCall.runAll time2Str { version, status, close, body } calls).SplitsRight ↔
      (TextCall.runAll time2Str { version, status, close, body } calls).Unbroken :=
  HttpResponse.splitsRight_iff (TextCall.runAll_websocket _ calls)

/-- A redirect to a uri that brings a header line of its own. -/
theorem redirect_brings_header :
    ¬(TextCall.runAll (fun _ => []) {} [.setRedirect (bytes "/\r\nX: 1")]).SplitsRight := by
  intro h
  have hunbroken := (HttpResponse.splitsRight_iff rfl).mp h
  have hlocation := hunbroken.headers (bytes "Location", bytes "/\r\nX: 1") List.mem_cons_self
    (by decide)
  exact absurd hlocation.2 (by decide)

end Gxh.Http
