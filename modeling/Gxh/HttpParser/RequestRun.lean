import Gxh.HttpParser.UrlForms
import Gxh.HttpParser.ResponseRun

/-!
# Reading a request

The parts of a request in the form of `Reads`: the method, the target, the version, and the empty
line with what follows it. The header lines between them are those of a response.
-/

namespace Gxh.HttpParser

variable {σ : Type} {settings : Settings σ} {p p' : Parser} {u u' : σ} {ch : UInt8}
variable {l : List UInt8}

/-! ## The method -/

/-- The parser after the request line, less its place in the message. -/
def Parser.ofRequest (m : Method) (a b : Nat) : Parser :=
  { Parser.init .HTTP_REQUEST with
    content_length := ULLONG_MAX
    http_major := a
    http_minor := b
    method := m }

/-- After the first letter of a method, which may be of `m`. -/
def Parser.inMethod (m : Method) : Parser :=
  { (Parser.ofRequest m 0 0).put .s_req_method 1 with index := 1 }

/-- What a byte of the method leaves of the parser. -/
def methodChar (ch : UInt8) (p : Parser) : Option Parser :=
  match reqMethod (Exec.between p ()) ch with
  | .next e => some e.parser
  | .stop _ _ => none

theorem reqMethod_next (h : methodChar ch p = some p') (u : σ) :
    reqMethod (.between p u) ch = .next (.between p' u) := by
  unfold methodChar reqMethod at h
  unfold reqMethod
  dsimp only [Exec.between] at h ⊢
  by_cases hzero : ch = 0
  · rw [if_pos hzero] at h
    cases h
  rw [if_neg hzero] at h ⊢
  by_cases hend : ch = ' ' ∧ (bytes p.method.string).getD p.index 0 = 0
  · rw [if_pos hend] at h ⊢
    cases h
    rfl
  rw [if_neg hend] at h ⊢
  by_cases hsame : ch = (bytes p.method.string).getD p.index 0
  · rw [if_pos hsame] at h ⊢
    cases h
    rfl
  rw [if_neg hsame] at h ⊢
  by_cases hletter : ('A' ≤ ch ∧ ch ≤ 'Z') ∨ ch = '-'
  · rw [if_pos hletter] at h ⊢
    cases hswitch : methodSwitch ch p.method p.index with
    | none =>
        rw [hswitch] at h
        cases h
    | some m =>
        rw [hswitch] at h
        cases h
        rfl
  · rw [if_neg hletter] at h
    cases h

/-- The bytes of a method behind its first one. -/
def methodRest (p : Parser) : List UInt8 → Option Parser
  | [] => some p
  | c :: cs =>
      if p.state = .s_req_method ∧ p.nread + 1 ≤ maxHeaderSize then
        (methodChar c (p.put p.state (p.nread + 1))).bind (methodRest · cs)
      else none

theorem reads_methodRest {cs : List UInt8} (h : methodRest p cs = some p') (u : σ) :
    Reads settings (.between p u) cs True fun e' => e' = .between p' u := by
  induction cs generalizing p with
  | nil =>
      cases h
      exact .nil rfl
  | cons c cs ih =>
      unfold methodRest at h
      split_ifs at h with hroom
      obtain ⟨q, hq, hrest⟩ := Option.bind_eq_some_iff.mp h
      have hone : Reads settings (.between p u) [c] True fun e' => e' = .between q u := by
        refine Reads.stepped (by rw [hroom.1]; rfl) hroom.2 ?_
        unfold switch
        simp only [Exec.between, Parser.put_state, hroom.1]
        rw [hroom.1] at hq
        exact reqMethod_next hq u
      exact hone.seq (fun _ _ he => he ▸ ih hrest) (and_self_iff)

theorem methodRest_string (m : Method) :
    ∃ c cs m₀, bytes m.string = c :: cs ∧ (isAlpha c = true ∧ c ≠ CR ∧ c ≠ LF) ∧
      methodOfFirst c = some m₀ ∧
      methodRest (.inMethod m₀) (cs ++ [(' ' : UInt8)]) =
        some { (Parser.ofRequest m 0 0).put .s_req_spaces_before_url (cs.length + 2) with
          index := cs.length + 2 } := by
  cases m <;> exact ⟨_, _, _, rfl, by decide, rfl, by decide⟩

theorem reads_methodStart (hset : ∀ p u, settings.onNotify .message_begin p u = (u, 0))
    {m : Method} (hletter : isAlpha ch = true ∧ ch ≠ CR ∧ ch ≠ LF) (hm : methodOfFirst ch = some m)
    (u : σ) :
    Reads settings (.between (.init .HTTP_REQUEST) u) [ch] True fun e' =>
      e' = .between (.inMethod m) u := by
  refine Reads.stepped rfl (by decide) ?_
  show startReq settings (.between ((Parser.init .HTTP_REQUEST).put .s_start_req 1) u) ch = _
  unfold startReq
  simp only [hletter, or_self, if_false, Bool.not_true, Bool.false_eq_true, hm]
  unfold Exec.callbackNotify
  rw [hset]
  rfl

/-- Every method is read by its name. -/
theorem reads_method (hset : ∀ p u, settings.onNotify .message_begin p u = (u, 0)) (m : Method)
    (u : σ) :
    Reads settings (.between (.init .HTTP_REQUEST) u) (bytes m.string ++ [(' ' : UInt8)]) True
      fun e' => ∃ p', p'.core = (Parser.ofRequest m 0 0).put .s_req_spaces_before_url
        ((bytes m.string).length + 1) ∧ p'.flags = {} ∧ e' = .between p' u := by
  obtain ⟨c, cs, m₀, hbytes, hletter, hfirst, hrest⟩ := methodRest_string m
  have hall := (reads_methodStart hset hletter hfirst u).seq
    (fun _ _ he => he ▸ reads_methodRest hrest u) (and_self_iff)
  rw [hbytes]
  refine hall.conseq (.refl _) ?_
  rintro - _ rfl
  exact ⟨_, rfl, rfl, rfl⟩

/-! ## The target -/

theorem parseUrlChar_blank {s : State} {c : UInt8} (h : parseUrlChar s c ≠ .s_dead) :
    c ≠ ' ' ∧ c ≠ CR ∧ c ≠ LF := by
  refine ⟨?_, ?_, ?_⟩
  · rintro rfl
    exact h rfl
  · rintro rfl
    exact h rfl
  · rintro rfl
    exact h rfl

theorem inTail_header {s : State} (h : s.inTail) : s.parsingHeader = true := by
  rcases h with rfl | rfl | rfl | rfl | rfl <;> rfl

theorem switch_inTail (e : Exec σ) (h : e.parser.state.inTail) :
    switch settings e ch = reqUrl settings e ch := by
  unfold switch
  rcases h with hs | hs | hs | hs | hs <;> rw [hs]

/-- The bytes behind the `/`, with the blank behind the target. -/
theorem reads_targetRest {cs : List UInt8} {s : State} (hs : s.inTail)
    (halive : cs.foldl parseUrlChar s ≠ .s_dead) {n : Nat} (hn : n ≤ maxHeaderSize)
    (hset : ∀ p, settings.onData .url p (l ++ cs) u = (u', 0)) :
    Reads settings (.inside (p.put s n) u .url l none) (cs ++ [(' ' : UInt8)])
      (n + (cs.length + 1) ≤ maxHeaderSize) fun e' =>
        e' = .between (p.put .s_req_http_start (n + (cs.length + 1))) u' := by
  induction cs generalizing l s n with
  | nil =>
      have hend : switch settings (.inside (p.put s (n + 1)) u .url l none) ' ' =
          .next (.between (p.put .s_req_http_start (n + 1)) u') := by
        have hcall := callbackData_inside (p.put .s_req_http_start (n + 1)) u .url l [] 1 .next
          (congrArg Prod.snd (hset _))
        rw [hset] at hcall
        rw [switch_inTail _ hs, reqUrl, if_pos rfl]
        exact hcall
      exact Reads.taken (inTail_header hs) hn hend rfl
  | cons c cs ih =>
      have hstep : parseUrlChar s c ≠ .s_dead := by
        intro hdead
        rw [List.foldl_cons, hdead, trap_dead.foldl] at halive
        exact halive rfl
      obtain ⟨hspace, hCR, hLF⟩ := parseUrlChar_blank hstep
      have hone : Reads settings (.inside (p.put s n) u .url l none) [c] (n + 1 ≤ maxHeaderSize)
          fun e' => e' = .inside (p.put (parseUrlChar s c) (n + 1)) u .url (l ++ [c]) none := by
        have hnext : switch settings (.inside (p.put s (n + 1)) u .url l none) c =
            .next (.inside (p.put (parseUrlChar s c) (n + 1)) u .url l none) := by
          rw [switch_inTail _ hs, reqUrl, if_neg hspace, if_neg (not_or.mpr ⟨hCR, hLF⟩), urlChar]
          exact if_neg hstep
        exact Reads.taken (inTail_header hs) hn hnext (Exec.inside_advance c)
      refine hone.seq (d := n + 1 + (cs.length + 1) ≤ maxHeaderSize) ?_ ?_
      · rintro hroom _ rfl
        have hnext := ih (l := l ++ [c]) (hs.step c hstep) halive hroom
          (by simpa only [List.append_assoc, List.singleton_append] using hset)
        rw [show n + ((c :: cs).length + 1) = n + 1 + (cs.length + 1) by
          rw [List.length_cons]; omega]
        exact hnext
      · rw [List.length_cons]
        exact ⟨fun h => by omega, fun h => ⟨by omega, by omega⟩⟩

/-- The target of a request that is no `CONNECT`, in origin form. -/
theorem reads_target {cs : List UInt8} (hmethod : p.method ≠ .CONNECT)
    (hs : p.state = .s_req_spaces_before_url)
    (halive : cs.foldl parseUrlChar .s_req_path ≠ .s_dead) (hn : p.nread ≤ maxHeaderSize)
    (hset : ∀ p, settings.onData .url p (('/' : UInt8) :: cs) u = (u', 0)) :
    Reads settings (.between p u) (('/' : UInt8) :: cs ++ [(' ' : UInt8)])
      (p.nread + (cs.length + 2) ≤ maxHeaderSize) fun e' =>
        e' = .between (p.put .s_req_http_start (p.nread + (cs.length + 2))) u' := by
  have hslash : Reads settings (.between p u) [('/' : UInt8)] (p.nread + 1 ≤ maxHeaderSize)
      fun e' => e' = .inside (p.put .s_req_path (p.nread + 1)) u .url [('/' : UInt8)] none := by
    have hurl : switch settings (.between (p.put p.state (p.nread + 1)) u) '/' =
        urlChar ((Exec.between (p.put p.state (p.nread + 1)) u).setMark .url) '/' := by
      unfold switch
      simp only [Exec.between, Parser.put_state, hs, reqSpacesBeforeUrl]
      exact (if_neg (by decide)).trans (if_neg hmethod)
    have hnext : urlChar ((Exec.between (p.put p.state (p.nread + 1)) u).setMark .url) '/' =
        .next (.inside (p.put .s_req_path (p.nread + 1)) u .url [] none) := by
      rw [Exec.setMark_between, urlChar, hs]
      rfl
    exact Reads.taken (by rw [hs]; rfl) hn (hurl.trans hnext) (Exec.inside_advance _)
  refine hslash.seq (d := p.nread + 1 + (cs.length + 1) ≤ maxHeaderSize) ?_
    ⟨fun h => by omega, fun h => ⟨by omega, by omega⟩⟩
  rintro hroom _ rfl
  have hrest := reads_targetRest (p := p) (l := [('/' : UInt8)]) (.inl rfl) halive hroom hset
  rw [show p.nread + (cs.length + 2) = p.nread + 1 + (cs.length + 1) by omega]
  exact hrest

/-! ## The components of the target -/

namespace UrlTail

variable (t : UrlTail)

/-- The components of a target, for `http_parser_parse_url`. -/
theorem parseUrl_text (hpath : t.path ≠ []) : parseUrl t.text false = some (t.put {} 0) := by
  have hfield : ∀ f : UrlField, f ≠ .UF_PATH → f ≠ .UF_QUERY → f ≠ .UF_FRAGMENT →
      (t.put {} 0).field f = none := by
    intro f h₁ h₂ h₃
    rw [UrlTail.put, Url.put_other h₃, Url.put_other h₂, Url.put_other h₁]
  obtain ⟨c, cs, hcons⟩ := List.exists_cons_of_ne_nil hpath
  have hslash : c = '/' := t.path_slash c (by rw [hcons]; rfl)
  have htext : t.text = ('/' : UInt8) :: (cs ++ (t.queryText ++ t.fragmentText)) := by
    rw [UrlTail.text, hcons, hslash]
    rfl
  -- the first byte leads where it leads behind an authority
  have hloop : urlLoop .s_req_spaces_before_url none false {} 0 t.text =
      some (false, t.put {} 0) := by
    have hserver : urlLoop .s_req_server_start none false {} 0 t.text =
        some (false, t.put {} 0) := t.urlLoop_text false {} 0 (.inl rfl) (by decide)
    rw [htext, urlLoop] at hserver ⊢
    exact hserver
  have hport : (t.put {} 0).text .UF_PORT t.text = none := by
    rw [Url.text, hfield _ (by decide) (by decide) (by decide), Option.map_none]
  have hnil : t.text ≠ [] := by
    rw [htext]
    exact List.cons_ne_nil _ _
  have hhost : hostPart t.text (false, t.put {} 0) = some (t.put {} 0) := by
    have hschema := hfield .UF_SCHEMA (by decide) (by decide) (by decide)
    have hnone := hfield .UF_HOST (by decide) (by decide) (by decide)
    rw [hostPart, hschema, if_neg (by simp), if_pos hnone]
  rw [parseUrl_eq hnil, hloop, Option.bind_some, hhost, Option.bind_some, Url.withPort, hport]

theorem text_component (hlen : t.text.length < 2 ^ 16) {f : UrlField} {pos : Nat}
    {x : List UInt8} (hfield : (t.put {} 0).field f = span pos x) (hx : Holds t.text pos x) :
    (t.put {} 0).text f t.text = if x = [] then none else some x := by
  rw [Url.text, hfield, span]
  split
  · rfl
  · rename_i hne
    have hpos : x.length ≠ 0 := fun h => hne (List.length_eq_zero_iff.mp h)
    have hslice := congrArg List.length hx.slice
    rw [List.length_take, List.length_drop] at hslice
    rw [Option.map_some, Nat.mod_eq_of_lt (by omega), Nat.mod_eq_of_lt (by omega), hx.slice]

end UrlTail

/-! ## The version -/

/-- Bytes that lead through a row of states and do nothing else. -/
def Settings.Moves (settings : Settings σ) (s : State) : List (UInt8 × State) → Prop
  | [] => True
  | (c, s') :: rest =>
      s.parsingHeader = true ∧ (∀ (p : Parser) u, p.state = s →
        switch settings (.between p u) c = .next (.between (p.put s' p.nread) u)) ∧
      settings.Moves s' rest

theorem reads_moves {s : State} {path : List (UInt8 × State)} (h : settings.Moves s path)
    (hs : p.state = s) (hn : p.nread + path.length ≤ maxHeaderSize) (u : σ) :
    Reads settings (.between p u) (path.map Prod.fst) True fun e' =>
      e' = .between (p.put (path.foldl (fun _ x => x.2) s) (p.nread + path.length)) u := by
  induction path generalizing s p with
  | nil =>
      refine .nil ?_
      rw [List.foldl_nil, ← hs]
      rfl
  | cons x rest ih =>
      obtain ⟨c, s'⟩ := x
      obtain ⟨hhead, hstep, hrest⟩ := h
      rw [List.length_cons] at hn ⊢
      have hone : Reads settings (.between p u) [c] True fun e' =>
          e' = .between (p.put s' (p.nread + 1)) u :=
        Reads.stepped (by rw [hs]; exact hhead) (by omega) (hstep _ u hs)
      refine hone.seq (fun _ _ he => he ▸ ?_) (and_self_iff)
      have hnext := ih (p := p.put s' (p.nread + 1)) hrest rfl (by rw [Parser.put_nread]; omega)
      rw [Parser.put_put, Parser.put_nread, Nat.add_assoc, Nat.add_comm 1] at hnext
      exact hnext

/-- A digit of the version. -/
theorem reads_versionDigit (s s' : State) (set : Nat → Parser → Parser) {d : Nat}
    (hs : p.state = s) (hhead : s.parsingHeader = true) (hn : p.nread + 1 ≤ maxHeaderSize)
    (hdigit : ∀ p ch, p.state = s →
      switch settings (.between p u) ch = versionDigit (.between p u) ch set s')
    (hset : ∀ v p s n, set v (p.put s n) = (set v p).put s n) (hd : d < 10) :
    Reads settings (.between p u) [digit d] True fun e' =>
      e' = .between ((set d p).put s' (p.nread + 1)) u := by
  obtain ⟨hnum, hvalue⟩ := isNum_digit d hd
  refine Reads.stepped (by rw [hs]; exact hhead) hn ?_
  rw [hdigit (p.put p.state (p.nread + 1)) _ hs, versionDigit, hnum, Bool.not_true,
    if_neg Bool.false_ne_true, hvalue]
  have hput : set d (p.put p.state (p.nread + 1)) = (set d p).put p.state (p.nread + 1) :=
    hset _ _ _ _
  unfold Exec.modify Exec.goto Exec.between
  rw [hput]
  rfl

/-- Everything of the request line behind the target. -/
theorem reads_version (settings : Settings σ) {a b : Nat} (ha : a < 10) (hb : b < 10)
    (hs : p.state = .s_req_http_start) (hn : p.nread + 10 ≤ maxHeaderSize) (u : σ) :
    Reads settings (.between p u)
      (bytes "HTTP/" ++ [digit a] ++ [('.' : UInt8)] ++ [digit b] ++ [CR, LF]) True fun e' =>
        e' = .between ({ p with http_major := a, http_minor := b }.put .s_header_field_start
          (p.nread + 10)) u := by
  have hprotocol : settings.Moves .s_req_http_start [('H', .s_req_http_H), ('T', .s_req_http_HT),
      ('T', .s_req_http_HTT), ('P', .s_req_http_HTTP), ('/', .s_req_http_major)] := by
    refine ⟨rfl, ?_, rfl, ?_, rfl, ?_, rfl, ?_, rfl, ?_, trivial⟩
    all_goals
      intro p u hs
      unfold switch
      simp only [Exec.between, hs]
      rfl
  have hdot : settings.Moves .s_req_http_dot [('.', .s_req_http_minor)] := by
    refine ⟨rfl, ?_, trivial⟩
    intro p u hs
    unfold switch
    simp only [Exec.between, hs]
    rfl
  have hend : settings.Moves .s_req_http_end [(CR, .s_req_line_almost_done),
      (LF, .s_header_field_start)] := by
    refine ⟨rfl, ?_, rfl, ?_, trivial⟩
    all_goals
      intro p u hs
      unfold switch
      simp only [Exec.between, hs]
      rfl
  have hmajor : Reads settings (.between (p.put .s_req_http_major (p.nread + 5)) u) [digit a] True
      fun e' => e' = .between ({ p with http_major := a }.put .s_req_http_dot (p.nread + 6)) u :=
    reads_versionDigit (p := p.put .s_req_http_major (p.nread + 5)) .s_req_http_major
      .s_req_http_dot (fun v p => { p with http_major := v }) rfl rfl
      (by rw [Parser.put_nread]; omega)
      (fun p ch hs => by unfold switch; simp only [Exec.between, hs]) (fun _ _ _ _ => rfl) ha
  have hminor : Reads settings
      (.between ({ p with http_major := a }.put .s_req_http_minor (p.nread + 7)) u) [digit b] True
      fun e' => e' = .between ({ p with http_major := a, http_minor := b }.put .s_req_http_end
        (p.nread + 8)) u :=
    reads_versionDigit (p := { p with http_major := a }.put .s_req_http_minor (p.nread + 7))
      .s_req_http_minor .s_req_http_end (fun v p => { p with http_minor := v }) rfl rfl
      (by rw [Parser.put_nread]; omega)
      (fun p ch hs => by unfold switch; simp only [Exec.between, hs]) (fun _ _ _ _ => rfl) hb
  have hfirst := (reads_moves hprotocol hs (show p.nread + 5 ≤ _ by omega) u).seq
    (fun _ _ he => he ▸ hmajor) (and_self_iff)
  have hsecond := hfirst.seq (fun _ _ he => he ▸ reads_moves hdot
    (p := { p with http_major := a }.put .s_req_http_dot (p.nread + 6)) rfl
    (show p.nread + 6 + 1 ≤ _ by omega) u) (and_self_iff)
  have hthird := hsecond.seq (fun _ _ he => he ▸ hminor) (and_self_iff)
  exact hthird.seq (fun _ _ he => he ▸ reads_moves hend
    (p := { p with http_major := a, http_minor := b }.put .s_req_http_end (p.nread + 8)) rfl
    (show p.nread + 8 + 2 ≤ _ by omega) u) (and_self_iff)

/-- A request line with a target in origin form, which the callback takes. -/
theorem reads_requestLine {m : Method} {cs : List UInt8} {a b : Nat}
    (hbegin : ∀ p u, settings.onNotify .message_begin p u = (u, 0)) (hmethod : m ≠ .CONNECT)
    (halive : cs.foldl parseUrlChar .s_req_path ≠ .s_dead)
    (hset : ∀ p, settings.onData .url p (('/' : UInt8) :: cs) u = (u', 0)) (ha : a < 10)
    (hb : b < 10) (hroom : (bytes m.string).length + cs.length + 13 ≤ maxHeaderSize) :
    Reads settings (.between (.init .HTTP_REQUEST) u)
      ((bytes m.string ++ [(' ' : UInt8)]) ++ (('/' : UInt8) :: cs ++ [(' ' : UInt8)]) ++
        (bytes "HTTP/" ++ [digit a] ++ [('.' : UInt8)] ++ [digit b] ++ [CR, LF]))
      True fun e' => ∃ p', p'.core = (Parser.ofRequest m a b).put .s_header_field_start
          ((bytes m.string).length + cs.length + 13) ∧ p'.flags = {} ∧ e' = .between p' u' := by
  have hfront : Reads settings (.between (.init .HTTP_REQUEST) u)
      ((bytes m.string ++ [(' ' : UInt8)]) ++ (('/' : UInt8) :: cs ++ [(' ' : UInt8)])) True
      fun e' => ∃ p', p'.core = (Parser.ofRequest m 0 0).put .s_req_http_start
          ((bytes m.string).length + cs.length + 3) ∧ p'.flags = {} ∧ e' = .between p' u' := by
    refine (reads_method hbegin m u).seq (d := True) ?_ and_self_iff
    rintro - _ ⟨p, hcore, hflags, rfl⟩
    have hnread : p.nread = (bytes m.string).length + 1 := congrArg Parser.nread hcore
    have hm : p.method = m := congrArg Parser.method hcore
    have hread := reads_target (p := p) (by rw [hm]; exact hmethod) (congrArg Parser.state hcore)
      halive (by omega) hset
    refine hread.conseq ⟨fun _ => trivial, fun _ => by omega⟩ ?_
    rintro - _ rfl
    refine ⟨p.put .s_req_http_start (p.nread + (cs.length + 2)), ?_, hflags, rfl⟩
    rw [Parser.put_core, hcore, Parser.put_put, hnread]
    congr 1
    omega
  refine hfront.seq (d := True) ?_ and_self_iff
  rintro - _ ⟨p, hcore, hflags, rfl⟩
  have hnread : p.nread = (bytes m.string).length + cs.length + 3 := congrArg Parser.nread hcore
  have hread := reads_version settings (p := p) ha hb (congrArg Parser.state hcore)
    (by omega) u'
  refine hread.conseq (.refl _) ?_
  rintro - _ rfl
  refine ⟨{ p with http_major := a, http_minor := b }.put .s_header_field_start (p.nread + 10), ?_,
    hflags, rfl⟩
  rw [hnread]
  exact congrArg (fun q : Parser => { q with http_major := a, http_minor := b }.put
    .s_header_field_start ((bytes m.string).length + cs.length + 13)) hcore

/-! ## The empty line -/

/-- A request that is neither chunked nor an upgrade, with its length in `m`. -/
structure Parser.Asks (p : Parser) (m : Nat) : Prop where
  type : p.type = .HTTP_REQUEST
  method : p.method ≠ .CONNECT
  errno : p.http_errno = .HPE_OK
  trailing : p.flags.F_TRAILING = false
  chunked : p.flags.F_CHUNKED = false
  skipbody : p.flags.F_SKIPBODY = false
  upgrade : p.flags.F_UPGRADE = false
  length : p.content_length = m

/-- The parser when the headers are complete. -/
def Parser.complete (p : Parser) (n : Nat) : Parser :=
  { p.put .s_headers_done n with upgrade := false }

/-- The two bytes of the empty line, up to what comes of the message. -/
theorem reads_requestHead {m : Nat} {P : Exec σ → Prop} (hp : p.Asks m)
    (hs : p.state = .s_header_field_start) (hn : p.nread ≤ maxHeaderSize)
    (hset : ∀ n, settings.onNotify .headers_complete (p.complete n) u = (u', 0))
    (hdone : ∃ e', headersDone settings (.between (p.complete (p.nread + 2)) u') LF = .next e' ∧
      P (e'.advance LF)) :
    Reads settings (.between p u) [CR, LF] (p.nread + 2 ≤ maxHeaderSize) P := by
  have hCR : switch settings (.between (p.put p.state (p.nread + 1)) u) CR =
      .next (.between (p.put .s_headers_almost_done (p.nread + 1)) u) := by
    unfold switch
    rw [hs]
    rfl
  have hupgrade : (p.put .s_headers_done (p.nread + 2)).upgrades = false := by
    have hflag : (p.put .s_headers_done (p.nread + 2)).flags.F_UPGRADE = false := hp.upgrade
    have hmethod : (p.put .s_headers_done (p.nread + 2)).method ≠ .CONNECT := hp.method
    unfold Parser.upgrades
    rw [hflag, Bool.false_and, if_neg Bool.false_ne_true, decide_eq_false hmethod]
  have halmost : switch settings (.between (p.put .s_headers_almost_done (p.nread + 2)) u) LF =
      headersComplete settings (.between (p.complete (p.nread + 2)) u)
        fun e => headersDone settings e LF := by
    have htrailing : (p.put .s_headers_almost_done (p.nread + 2)).flags.F_TRAILING = false :=
      hp.trailing
    have hchunked : (p.put .s_headers_almost_done (p.nread + 2)).flags.F_CHUNKED = false :=
      hp.chunked
    unfold switch
    simp only [Exec.between, Parser.put_state, headersAlmostDone, Exec.strictCheck, ne_eq,
      not_true_eq_false, decide_false, Bool.false_eq_true, if_false, htrailing, hchunked,
      Bool.false_and]
    rw [Parser.complete, ← hupgrade]
    rfl
  have hcomplete : headersComplete settings (.between (p.complete (p.nread + 2)) u)
      (fun e => headersDone settings e LF) =
        headersDone settings (.between (p.complete (p.nread + 2)) u') LF := by
    unfold headersComplete
    simp only [Exec.between, hset, if_true]
  refine (Reads.move (by rw [hs]; rfl) hn hCR).seq (d := p.nread + 2 ≤ maxHeaderSize) ?_
    ⟨fun h => h.2, fun h => ⟨by omega, h⟩⟩
  rintro hroom _ rfl
  obtain ⟨e', he', hP⟩ := hdone
  exact Reads.taken rfl hroom (halmost.trans (hcomplete.trans he')) hP

theorem headersDone_eq (settings : Settings σ) {m : Nat} (n : Nat) (hp : p.Asks m) (u : σ) :
    headersDone settings (.between (p.complete n) u) LF =
      if m = 0 ∨ m = ULLONG_MAX then
        messageComplete settings (.between ((p.complete n).put .s_headers_done 0) u) .next
      else .next (.between ((p.complete n).put .s_body_identity 0) u) := by
  have hup : ((p.complete n).put .s_headers_done 0).upgrade = false := rfl
  have hskip : ((p.complete n).put .s_headers_done 0).flags.F_SKIPBODY = false := hp.skipbody
  have hchunked : ((p.complete n).put .s_headers_done 0).flags.F_CHUNKED = false := hp.chunked
  have hlength : ((p.complete n).put .s_headers_done 0).content_length = m := hp.length
  have heof : ((p.complete n).put .s_headers_done 0).messageNeedsEof = false := by
    have htype : ((p.complete n).put .s_headers_done 0).type = .HTTP_REQUEST := hp.type
    rw [Parser.messageNeedsEof, if_pos htype]
  have hsame : (Exec.between (p.complete n) u).modify (fun p => { p with nread := 0 }) =
      .between ((p.complete n).put .s_headers_done 0) u := rfl
  unfold headersDone
  simp only [Exec.strictCheck, ne_eq, not_true_eq_false, decide_false, Bool.false_eq_true,
    if_false]
  rw [hsame]
  simp only [Exec.between, hup, hskip, hchunked, hlength, heof, Bool.false_and,
    Bool.false_eq_true, if_false, Bool.not_false, if_true]
  by_cases hzero : m = 0
  · rw [if_pos hzero, if_pos (.inl hzero)]
  · by_cases hmax : m = ULLONG_MAX
    · rw [if_neg hzero, if_neg (not_not.mpr hmax), if_pos (.inr hmax)]
    · rw [if_neg hzero, if_pos hmax, if_neg (not_or.mpr ⟨hzero, hmax⟩)]
      rfl

end Gxh.HttpParser
