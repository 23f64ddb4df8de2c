import Gxh.Http.ResponseLines

/-!
# The `content-length` of a response

A client looks for the `content-length` among the lines of the head. `HttpResponse::dump` writes
one for a body whatever the header map holds, where `HttpRequest::dump` leaves out an entry of
that name. So the length is announced once exactly if no other line of the head reads as a
`content-length` line; for a response whose texts have no line ends, if the map has no such entry.
-/

namespace Gxh.Http

open HttpParser Lines

/-! ## The calls -/

/-- The calls of a servlet on the header map. -/
inductive HeaderCall
  | setHeader (key val : List UInt8)
  | delHeader (key : List UInt8)
  deriving DecidableEq, Repr

namespace HeaderCall

def run (r : HttpResponse) : HeaderCall → HttpResponse
  | setHeader key val => r.setHeader key val
  | delHeader key => r.delHeader key

/-- The response after the calls. -/
def runAll (r : HttpResponse) (calls : List HeaderCall) : HttpResponse := calls.foldl run r

/-- A header of the protocol: a token for the name, and a value without line ends. -/
def Proper : HeaderCall → Prop
  | setHeader key val => isToken key = true ∧ ∀ c ∈ val, c ≠ CR ∧ c ≠ LF
  | delHeader _ => True

theorem runAll_body (r : HttpResponse) (calls : List HeaderCall) :
    (runAll r calls).body = r.body := by
  induction calls generalizing r with
  | nil => rfl
  | cons c rest ih =>
      show (runAll (c.run r) rest).body = _
      rw [ih]
      cases c <;> rfl

end HeaderCall

/-! ## What a client finds -/

/-- The value of a `content-length` line. -/
def lengthValue (line : List UInt8) : Option (List UInt8) :=
  (splitByte ':' line).bind fun i => if named "content-length" i then some (trim i.2) else none

namespace HttpResponse

/-- The header lines have one `content-length`, it is the size of the body, and the body follows. -/
structure Announced (r : HttpResponse) : Prop where
  once : (splitHead CR LF r.dump).1.tail.filterMap lengthValue = [decimal r.body.length]
  body : (splitHead CR LF r.dump).2 = r.body

/-- The lines before the length of the body. -/
def frontLines (r : HttpResponse) : List (List UInt8) := r.pieces.flatMap (lines CR LF)

/-- None of them ends the head, and none but the first, the status line, reads as a length. -/
structure Quiet (r : HttpResponse) : Prop where
  nonempty : ∀ l ∈ r.frontLines, l ≠ []
  lengthless : ∀ l ∈ r.frontLines.tail, lengthValue l = none

variable {r : HttpResponse}

theorem frontLines_ne_nil (r : HttpResponse) : r.frontLines ≠ [] := by
  rw [frontLines, pieces, List.flatMap_cons]
  exact List.append_ne_nil_of_left_ne_nil (lines_ne_nil _) _

theorem lengthValue_fieldText {name : List UInt8} (h : (':' : UInt8) ∉ name)
    (value : List UInt8) :
    lengthValue (fieldText (name, value)) =
      if strcaseEq name (bytes "content-length") then some (trim ((' ' : UInt8) :: value))
      else none := by
  have hsplit : splitByte ':' (fieldText (name, value)) =
      some (name, (' ' : UInt8) :: value) := by
    rw [fieldText, List.append_assoc]
    exact splitByte_append h _
  rw [lengthValue, hsplit]
  rfl

theorem lengthValue_lengthField (n : Nat) :
    lengthValue (fieldText (bytes "content-length", decimal n)) = some (decimal n) := by
  have hcolon : (':' : UInt8) ∉ bytes "content-length" := by decide
  have hname : strcaseEq (bytes "content-length") (bytes "content-length") = true := by decide
  rw [lengthValue_fieldText hcolon, if_pos hname, trim_eq (HttpRequest.isFieldText_decimal n)]

theorem lines_dump_body (h : r.body ≠ []) :
    lines CR LF r.dump =
      (r.frontLines ++ [fieldText (bytes "content-length", decimal r.body.length)]) ++
        [] :: lines CR LF r.body := by
  have hunbroken := lengthField_unbroken r.body
  have hfield : lengthField r.body = [(bytes "content-length", decimal r.body.length)] := if_neg h
  rw [hfield] at hunbroken
  rw [lines_dump, List.flatMap_append, hfield, (flatMap_lines_eq_iff _).mpr hunbroken]
  rfl

theorem announced_iff (h : r.body ≠ []) : r.Announced ↔ r.Quiet := by
  have hlines := lines_dump_body h
  have hlength : fieldText (bytes "content-length", decimal r.body.length) ≠ [] := by
    rw [fieldText, List.append_assoc]
    exact List.append_ne_nil_of_right_ne_nil _ (List.cons_ne_nil _ _)
  -- the lengths found are those of the lines in front and the one of the body
  have hfound : (r.frontLines ++
      [fieldText (bytes "content-length", decimal r.body.length)]).tail.filterMap lengthValue =
        r.frontLines.tail.filterMap lengthValue ++ [decimal r.body.length] := by
    rw [List.tail_append_of_ne_nil r.frontLines_ne_nil, List.filterMap_append,
      List.filterMap_cons_some (lengthValue_lengthField _)]
    rfl
  constructor
  · intro hone
    have hne := (splitHead_eq_iff hlines).mp hone.body
    have honce := hone.once
    rw [splitHead_head hlines hne, hfound] at honce
    refine ⟨fun l hl => hne l (List.mem_append_left _ hl), ?_⟩
    exact List.filterMap_eq_nil_iff.mp (List.append_left_eq_self.mp honce)
  · intro hquiet
    have hne : ∀ l ∈ r.frontLines ++
        [fieldText (bytes "content-length", decimal r.body.length)], l ≠ [] := by
      intro l hl
      rcases List.mem_append.mp hl with hl | hl
      · exact hquiet.nonempty l hl
      · rw [List.mem_singleton.mp hl]
        exact hlength
    refine ⟨?_, (splitHead_eq_iff hlines).mpr hne⟩
    rw [splitHead_head hlines hne, hfound, List.filterMap_eq_nil_iff.mpr hquiet.lengthless]
    rfl

/-! ## Responses without line ends in their texts -/

/-- The names are tokens, and no text that is printed has a line end. -/
structure Clean (r : HttpResponse) : Prop where
  sorted : r.headers.Sorted
  reason : unbroken CR LF r.reason = true
  names : ∀ i ∈ r.headers, isToken i.1 = true
  values : ∀ i ∈ r.headers, unbroken CR LF i.2 = true
  cookies : ∀ k ∈ r.cookies, unbroken CR LF k = true

namespace Clean

theorem printedFields_unbroken (h : r.Clean) :
    ∀ i ∈ r.printedFields, unbroken CR LF (fieldText i) = true := by
  intro i hi
  have hclose : unbroken CR LF (fieldText (bytes "connection", closeText r.close)) = true := by
    cases r.close <;> decide
  rcases List.mem_append.mp hi with hi | hi
  · rcases List.mem_append.mp hi with hi | hi
    · have hmem := (List.mem_filter.mp hi).1
      rw [unbroken_fieldText, h.values i hmem, Bool.and_true]
      exact unbroken_of_not_mem (CR_notMem_token (h.names i hmem))
    · obtain ⟨k, hk, rfl⟩ := List.mem_map.mp hi
      rw [unbroken_fieldText, h.cookies k hk]
      rfl
  · split at hi
    · cases hi
    · rw [List.mem_singleton.mp hi]
      exact hclose

theorem frontLines_eq (h : r.Clean) : r.frontLines = r.pieces := by
  refine (flatMap_lines_eq_iff _).mpr ?_
  intro p hp
  rcases List.mem_cons.mp hp with rfl | hp
  · exact unbroken_statusLine.trans h.reason
  · obtain ⟨i, hi, rfl⟩ := List.mem_map.mp hp
    exact h.printedFields_unbroken i hi

theorem find_eq_none_iff (h : r.Clean) :
    r.headers.find (bytes "content-length") = none ↔
      ∀ i ∈ r.headers, strcaseEq i.1 (bytes "content-length") = false := by
  rw [HeaderMap.find_eq, OrdMap.find_eq_none_iff ranks_caseKey h.sorted]
  refine forall₂_congr fun i _ => ?_
  rw [← Bool.not_eq_true, strcaseEq_iff]

/-- Of the printed lines those of the header map may read as a length. -/
theorem quiet_iff (h : r.Clean) :
    r.Quiet ↔ r.headers.find (bytes "content-length") = none := by
  rw [h.find_eq_none_iff]
  constructor
  · intro hquiet i hi
    have hcolon := colon_notMem (h.names i hi)
    by_cases hname : strcaseEq i.1 (bytes "content-length") = true
    · -- the entry is printed, as it is not the one for the connection
      have hconn : strcaseEq i.1 (bytes "connection") = false := by
        rw [← Bool.not_eq_true, strcaseEq_iff, (strcaseEq_iff _ _).mp hname]
        decide
      have hprinted : i ∈ r.printedFields := by
        refine List.mem_append_left _ (List.mem_append_left _ (List.mem_filter.mpr ⟨hi, ?_⟩))
        rw [hconn]
        exact Bool.or_true _
      have hline : fieldText i ∈ r.frontLines.tail := by
        rw [h.frontLines_eq]
        exact List.mem_map_of_mem hprinted
      have hnone := hquiet.lengthless _ hline
      rw [lengthValue_fieldText hcolon, if_pos hname] at hnone
      cases hnone
    · exact Bool.not_eq_true _ |>.mp hname
  · intro hall
    have hother : ∀ name value, (':' : UInt8) ∉ name →
        strcaseEq name (bytes "content-length") = false →
          lengthValue (fieldText (name, value)) = none := by
      intro name value hcolon hname
      rw [lengthValue_fieldText hcolon, hname]
      rfl
    constructor
    · intro l hl
      rw [h.frontLines_eq] at hl
      exact r.head_ne_nil _ l hl
    · intro l hl
      rw [h.frontLines_eq] at hl
      obtain ⟨i, hi, rfl⟩ := List.mem_map.mp hl
      rcases List.mem_append.mp hi with hi | hi
      · rcases List.mem_append.mp hi with hi | hi
        · have hmem := (List.mem_filter.mp hi).1
          exact hother i.1 i.2 (colon_notMem (h.names i hmem)) (hall i hmem)
        · obtain ⟨k, -, rfl⟩ := List.mem_map.mp hi
          exact hother _ k (by decide) (by decide)
      · split at hi
        · cases hi
        · rw [List.mem_singleton.mp hi]
          exact hother _ _ (by decide) (by decide)

theorem setHeader (h : r.Clean) {key val : List UInt8} (hkey : isToken key = true)
    (hval : unbroken CR LF val = true) : (r.setHeader key val).Clean := by
  have hparts : ∀ i ∈ (r.setHeader key val).headers,
      i ∈ r.headers ∨ i.2 = val ∧ (i.1 = key ∨ ∃ v, (i.1, v) ∈ r.headers) := by
    intro i hi
    have hset : i ∈ OrdMap.set caseInsensitiveLess key val r.headers := by
      rw [← HeaderMap.set_eq]
      exact hi
    exact OrdMap.mem_set_parts hset
  refine ⟨?_, h.reason, ?_, ?_, h.cookies⟩
  · show OrdMap.Sorted caseKey (r.headers.set key val)
    rw [HeaderMap.set_eq]
    exact OrdMap.Sorted.set ranks_caseKey h.sorted
  · intro i hi
    rcases hparts i hi with hold | ⟨-, hk | ⟨v, hv⟩⟩
    · exact h.names i hold
    · rw [hk]
      exact hkey
    · exact h.names (i.1, v) hv
  · intro i hi
    rcases hparts i hi with hold | ⟨hv, -⟩
    · exact h.values i hold
    · rw [hv]
      exact hval

theorem delHeader (h : r.Clean) (key : List UInt8) : (r.delHeader key).Clean := by
  have hsub : (r.delHeader key).headers.Sublist r.headers := OrdMap.erase_sublist
  exact ⟨h.sorted.sublist hsub, h.reason, fun i hi => h.names i (hsub.subset hi),
    fun i hi => h.values i (hsub.subset hi), h.cookies⟩

theorem runAll (h : r.Clean) {calls : List HeaderCall} (hcalls : ∀ c ∈ calls, c.Proper) :
    (HeaderCall.runAll r calls).Clean := by
  induction calls generalizing r with
  | nil => exact h
  | cons c rest ih =>
      obtain ⟨hc, hrest⟩ := List.forall_mem_cons.mp hcalls
      have hrun : (c.run r).Clean := by
        cases c with
        | setHeader key val =>
            exact h.setHeader hc.1 (unbroken_of_not_mem fun hcr => (hc.2 CR hcr).1 rfl)
        | delHeader key => exact h.delHeader key
      exact ih hrun hrest

end Clean

end HttpResponse

/-- A new response has nothing to print but its body. -/
theorem HttpResponse.clean_new (body : List UInt8) : ({ body } : HttpResponse).Clean :=
  ⟨List.Pairwise.nil, rfl, nofun, nofun, nofun⟩

/-- The length of the body is announced once exactly if no line in front of it reads as a length or
ends the head; for a response of clean texts and calls with proper headers, exactly if they leave no
`content-length` in the header map. -/
theorem content_length_once (r : HttpResponse) (calls : List HeaderCall) (h : r.body ≠ []) :
    ((HeaderCall.runAll r calls).Announced ↔ (HeaderCall.runAll r calls).Quiet) ∧
    (r.Clean → (∀ c ∈ calls, c.Proper) →
      ((HeaderCall.runAll r calls).Announced ↔
        (HeaderCall.runAll r calls).headers.find (bytes "content-length") = none)) := by
  have hbody : (HeaderCall.runAll r calls).body ≠ [] := by
    rw [HeaderCall.runAll_body]
    exact h
  refine ⟨HttpResponse.announced_iff hbody, fun hclean hcalls => ?_⟩
  rw [HttpResponse.announced_iff hbody]
  exact (hclean.runAll hcalls).quiet_iff

theorem content_type_alone :
    (HeaderCall.runAll { body := bytes "hi" }
      [.setHeader (bytes "Content-Type") (bytes "text/plain")]).Announced := by
  have h := content_length_once { body := bytes "hi" }
    [.setHeader (bytes "Content-Type") (bytes "text/plain")] (by decide)
  refine (h.2 (HttpResponse.clean_new _) ?_).mpr (by decide)
  exact List.forall_mem_singleton.mpr ⟨by decide, List.all_iff_forall_prop.mp (by decide)⟩

/-- A `Content-Length` of the servlet is printed beside the one of the body. -/
theorem content_length_twice :
    ¬(HeaderCall.runAll { body := bytes "hi" }
      [.setHeader (bytes "Content-Length") (bytes "5")]).Announced := by
  have hname : isToken (bytes "Content-Length") = true := by decide
  have hvalue : unbroken CR LF (bytes "5") = true := by decide
  have hclean := (HttpResponse.clean_new (bytes "hi")).setHeader hname hvalue
  intro h
  have hnone := hclean.quiet_iff.mp ((HttpResponse.announced_iff (by decide)).mp h)
  exact absurd hnone (by decide)

end Gxh.Http
