import Gxh.HttpParser.UrlAuthority

/-!
# The URLs that `http_parser_parse_url` takes

Apart from the texts that begin with `/` or `*`, they are the absolute URLs of the grammar.

* `AbsoluteUrl.parseUrl_text` — the components found in an absolute URL, as positions modulo
  `2 ^ 16`;
* `exists_absoluteUrl` — every other text that is taken is one.
-/

namespace Gxh.HttpParser

open Scanner

/-! ## Absolute URLs -/

/-- `scheme://authority`, and what follows the authority. -/
structure AbsoluteUrl where
  scheme : List UInt8
  authority : Authority
  tail : UrlTail
  scheme_ne : scheme ≠ []
  scheme_chars : ∀ c ∈ scheme, isAlpha c = true

def AbsoluteUrl.text (l : AbsoluteUrl) : List UInt8 :=
  absoluteText l.scheme l.authority.text l.tail

/-- A byte that no state of the server takes for a delimiter. -/
def isServerChar (c : UInt8) : Bool := isUserinfoChar c || c = '[' || c = ']'

theorem isServerChar_keeps {c : UInt8} (h : isServerChar c = true) :
    c ≠ '/' ∧ c ≠ '?' ∧ c ≠ '@' ∧ parseUrlChar.serverChar c = .s_req_server := by
  have hslash : c ≠ '/' := ne_of_apply_ne isServerChar (by rw [h]; decide)
  have hmark : c ≠ '?' := ne_of_apply_ne isServerChar (by rw [h]; decide)
  have hat : c ≠ '@' := ne_of_apply_ne isServerChar (by rw [h]; decide)
  refine ⟨hslash, hmark, hat, ?_⟩
  rw [parseUrlChar.serverChar, if_neg hslash, if_neg hmark, if_neg hat]
  exact if_pos h

theorem isServerChar_of_alphanum {c : UInt8} (h : isAlphanum c = true) : isServerChar c = true := by
  simp [isServerChar, isUserinfoChar, h]

theorem isServerChar_of_num {c : UInt8} (h : isNum c = true) : isServerChar c = true :=
  isServerChar_of_alphanum (by simp [isAlphanum, h])

theorem isServerChar_of_host {c : UInt8} (h : isHostChar c = true) : isServerChar c = true := by
  simp only [isHostChar, Bool.or_eq_true, decide_eq_true_eq] at h
  rcases h with (h | rfl) | rfl
  · exact isServerChar_of_alphanum h
  · decide
  · decide

theorem isServerChar_of_v6 {c : UInt8} (h : isV6Char c = true) : isServerChar c = true := by
  simp only [isV6Char, isHex, Bool.or_eq_true, Bool.and_eq_true, decide_eq_true_eq] at h
  rcases h with ((h | ⟨hlow, hhigh⟩) | rfl) | rfl
  · exact isServerChar_of_num h
  · have hletter : lower c ≤ ('z' : UInt8) := UInt8.le_trans hhigh (by decide)
    exact isServerChar_of_alphanum (by simp [isAlphanum, isAlpha, hlow, hletter])
  · decide
  · decide

theorem isServerChar_of_zone {c : UInt8} (h : isZoneChar c = true) : isServerChar c = true := by
  simp only [isZoneChar, Bool.or_eq_true, decide_eq_true_eq] at h
  rcases h with ((((h | rfl) | rfl) | rfl) | rfl) | rfl
  · exact isServerChar_of_alphanum h
  · decide
  · decide
  · decide
  · decide
  · decide

theorem State.inServer.serverChar {s : State} (h : s.inServer) {c : UInt8}
    (hc : isServerChar c = true) : parseUrlChar s c = .s_req_server := by
  obtain ⟨-, -, hat, hkeep⟩ := isServerChar_keeps hc
  rcases h with rfl | rfl | rfl
  · rw [parseUrlChar_server, hkeep]
  · have hsame : parseUrlChar .s_req_server c = parseUrlChar .s_req_server_start c := rfl
    rw [hsame, parseUrlChar_server, hkeep]
  · rw [parseUrlChar_with_at, if_neg hat, hkeep]

theorem State.inServer.serverChars {s : State} (h : s.inServer) {l : List UInt8}
    (hl : ∀ c ∈ l, isServerChar c = true) : (l.foldl parseUrlChar s).inServer := by
  induction l generalizing s with
  | nil => exact h
  | cons c l ih =>
      rw [List.foldl_cons, h.serverChar (hl c List.mem_cons_self)]
      exact ih (.inr (.inl rfl)) fun b hb => hl b (List.mem_cons_of_mem _ hb)

theorem State.inServer.alive {s : State} (h : s.inServer) : s ≠ .s_dead := by
  rcases h with rfl | rfl | rfl
  · decide
  · decide
  · decide

namespace Authority

variable (a : Authority)

theorem userinfo_server : ∀ c ∈ a.userinfo, isServerChar c = true := by
  intro c hc
  simp [isServerChar, a.userinfo_chars c hc]

/-- What holds of the bytes of names, addresses and zones holds of the bytes of a host. -/
theorem host_chars {P : UInt8 → Prop} (hname : ∀ c, isHostChar c = true → P c)
    (hv6 : ∀ c, isV6Char c = true → P c) (hpercent : P '%')
    (hzone : ∀ c, isZoneChar c = true → P c) : ∀ c ∈ a.host, P c := by
  have hform := a.host_form
  intro c hc
  split at hform
  · obtain ⟨address, zone, heq, -, haddress, hor⟩ := hform
    rw [heq, List.mem_append] at hc
    rcases hc with hc | hc
    · exact hv6 c (haddress c hc)
    · rcases hor with rfl | ⟨id, rfl, -, hid⟩
      · cases hc
      · rcases List.mem_cons.mp hc with rfl | hc
        · exact hpercent
        · exact hzone c (hid c hc)
  · exact hname c (hform.2 c hc)

theorem host_server : ∀ c ∈ a.host, isServerChar c = true :=
  a.host_chars (fun _ => isServerChar_of_host) (fun _ => isServerChar_of_v6) (by decide)
    fun _ => isServerChar_of_zone

/-- No byte of a host opens a literal. -/
theorem host_ne_bracket : ∀ c ∈ a.host, c ≠ ('[' : UInt8) :=
  a.host_chars (fun _ h => ne_of_apply_ne isHostChar (by rw [h]; decide))
    (fun _ h => ne_of_apply_ne isV6Char (by rw [h]; decide)) (by decide)
    fun _ h => ne_of_apply_ne isZoneChar (by rw [h]; decide)

theorem hostText_server : ∀ c ∈ a.hostText, isServerChar c = true := by
  intro c hc
  unfold hostText at hc
  split at hc
  · rcases List.mem_cons.mp hc with rfl | hc
    · decide
    · rcases List.mem_append.mp hc with hc | hc
      · exact a.host_server c hc
      · rw [List.mem_singleton.mp hc]
        decide
  · exact a.host_server c hc

theorem portText_server : ∀ c ∈ a.portText, isServerChar c = true := by
  intro c hc
  unfold portText at hc
  split at hc
  · cases hc
  · rcases List.mem_cons.mp hc with rfl | hc
    · decide
    · exact isServerChar_of_num (a.port_chars c hc)

theorem rest_server : ∀ c ∈ a.hostText ++ a.portText, isServerChar c = true := by
  intro c hc
  rcases List.mem_append.mp hc with hc | hc
  · exact a.hostText_server c hc
  · exact a.portText_server c hc

/-- `found_at`. -/
theorem at_mem_text : ('@' : UInt8) ∈ a.text ↔ a.hasAt = true := by
  have huser : ('@' : UInt8) ∉ a.userinfo := fun h =>
    (isServerChar_keeps (a.userinfo_server _ h)).2.2.1 rfl
  have hrest : ('@' : UInt8) ∉ a.hostText ++ a.portText := fun h =>
    (isServerChar_keeps (a.rest_server _ h)).2.2.1 rfl
  rw [text, List.mem_append, userText, List.mem_append]
  cases a.hasAt with
  | true => simp
  | false => simp [huser, hrest]

theorem serverText : ServerText a.text := by
  intro c hc
  have hserver : ∀ b, isServerChar b = true → b ≠ ('/' : UInt8) ∧ b ≠ ('?' : UInt8) :=
    fun b hb => ⟨(isServerChar_keeps hb).1, (isServerChar_keeps hb).2.1⟩
  rcases List.mem_append.mp hc with hc | hc
  · rcases List.mem_append.mp hc with hc | hc
    · exact hserver c (a.userinfo_server c hc)
    · split at hc
      · rw [List.mem_singleton.mp hc]
        decide
      · cases hc
  · exact hserver c (a.rest_server c hc)

/-- The states of the server take every authority. -/
theorem alive : a.text.foldl parseUrlChar .s_req_server_start ≠ .s_dead := by
  have hstart : State.inServer .s_req_server_start := .inl rfl
  have huser : (a.userText.foldl parseUrlChar .s_req_server_start).inServer := by
    cases hx : a.userinfo with
    | nil =>
        unfold userText
        rw [hx]
        cases a.hasAt with
        | true => exact .inr (.inr (by decide))
        | false => exact hstart
    | cons c l =>
        have hchars := a.userinfo_server
        rw [hx] at hchars
        have hfirst := hstart.serverChar (hchars c List.mem_cons_self)
        -- behind a byte of the user information the state is `s_req_server`
        have hstays : Stays parseUrlChar .s_req_server l := fun b hb =>
          State.inServer.serverChar (.inr (.inl rfl)) (hchars b (List.mem_cons_of_mem _ hb))
        unfold userText
        rw [hx, List.foldl_append, List.foldl_cons, hfirst, hstays.foldl]
        cases a.hasAt with
        | true => exact .inr (.inr (by decide))
        | false => exact .inr (.inl rfl)
  rw [text, List.foldl_append]
  exact (huser.serverChars a.rest_server).alive

theorem host_ne_nil : a.host ≠ [] := by
  have hform := a.host_form
  split at hform
  · obtain ⟨address, zone, heq, hne, -⟩ := hform
    simp [heq, hne]
  · exact hform.1

theorem text_ne_nil : a.text ≠ [] := by
  unfold text hostText
  split
  · simp
  · simp [a.host_ne_nil]

end Authority

/-! ## The components -/

namespace AbsoluteUrl

variable (l : AbsoluteUrl)

/-- Where the authority is. -/
def authorityPos : Nat := l.scheme.length + 3

/-- Where the path is. -/
def pathPos : Nat := l.authorityPos + l.authority.text.length

def queryPos : Nat := l.pathPos + l.tail.path.length + 1

def fragmentPos : Nat :=
  l.pathPos + l.tail.path.length + l.tail.queryText.length + l.tail.hashes

/-- The components. -/
def component : UrlField → List UInt8
  | .UF_SCHEMA => l.scheme
  | .UF_USERINFO => l.authority.userinfo
  | .UF_HOST => l.authority.host
  | .UF_PORT => l.authority.port
  | .UF_PATH => l.tail.path
  | .UF_QUERY => l.tail.query
  | .UF_FRAGMENT => l.tail.fragment

/-- Where they are. -/
def place : UrlField → Nat
  | .UF_SCHEMA => 0
  | .UF_USERINFO => l.authorityPos
  | .UF_HOST => l.authority.hostPos l.authorityPos
  | .UF_PORT => l.authority.portPos l.authorityPos
  | .UF_PATH => l.pathPos
  | .UF_QUERY => l.queryPos
  | .UF_FRAGMENT => l.fragmentPos

def field (f : UrlField) : Option FieldData := span (l.place f) (l.component f)

/-- The structure `http_parser_parse_url` fills, before the port. -/
def url : Url := { field := l.field }

end AbsoluteUrl

/-! ## The steps of `http_parser_parse_url` -/

/-- The port, from its digits. -/
def Url.withPort (u : Url) (buf : List UInt8) : Option Url :=
  match u.text .UF_PORT buf with
  | none => some u
  | some digits => (portLoop 0 digits).map fun v => { u with port := v }

theorem Url.withPort_field {u v : Url} {buf : List UInt8} (h : u.withPort buf = some v) :
    v.field = u.field := by
  unfold withPort at h
  split at h
  · rw [Option.some.inj h]
  · obtain ⟨port, -, rfl⟩ := Option.map_eq_some_iff.mp h
    rfl

/-- The host, of a URL that has one. -/
def hostPart (buf : List UInt8) (r : Bool × Url) : Option Url :=
  if (r.2.field .UF_SCHEMA).isSome ∧ r.2.field .UF_HOST = none then none
  else if r.2.field .UF_HOST = none then some r.2
  else parseHost buf r.2 r.1

theorem parseUrl_eq {buf : List UInt8} (h : buf ≠ []) :
    parseUrl buf false = (urlLoop .s_req_spaces_before_url none false {} 0 buf).bind fun r =>
      (hostPart buf r).bind fun u => u.withPort buf := by
  rw [parseUrl, if_neg h, if_neg Bool.false_ne_true]
  simp only
  cases urlLoop .s_req_spaces_before_url none false {} 0 buf with
  | none => rfl
  | some r =>
      obtain ⟨fa, u⟩ := r
      rw [Option.bind_some]
      simp only [hostPart]
      by_cases hhost : (u.field .UF_SCHEMA).isSome ∧ u.field .UF_HOST = none
      · rw [if_pos hhost, if_pos hhost]
        rfl
      · rw [if_neg hhost, if_neg hhost]
        cases (if u.field .UF_HOST = none then some u else parseHost buf u fa) with
        | none => rfl
        | some w =>
            simp only [Bool.false_eq_true, false_and, if_false, Option.bind_some]
            rfl

theorem parseUrl_some {buf : List UInt8} {v : Url} (h : parseUrl buf false = some v) :
    ∃ r u, urlLoop .s_req_spaces_before_url none false {} 0 buf = some r ∧
      hostPart buf r = some u ∧ u.withPort buf = some v := by
  have hnil : buf ≠ [] := by
    rintro rfl
    cases h
  rw [parseUrl_eq hnil] at h
  obtain ⟨r, hloop, h⟩ := Option.bind_eq_some_iff.mp h
  obtain ⟨u, hhost, hport⟩ := Option.bind_eq_some_iff.mp h
  exact ⟨r, u, hloop, hhost, hport⟩

/-- `http_parse_host` over an authority that lies at `pos`. -/
theorem parseHost_eq {buf a : List UInt8} {u : Url} {pos : Nat}
    (hu : u.field .UF_HOST = some ⟨pos, a.length⟩) (hbuf : (buf.drop pos).take a.length = a)
    (fa : Bool) :
    parseHost buf u fa =
      (hostLoop (if fa then .s_http_userinfo_start else .s_http_host_start)
        (u.set .UF_HOST ⟨pos, 0⟩) pos a).bind fun r => if r.1.accepts then some r.2 else none := by
  have hstart : (if fa then HostState.s_http_userinfo_start else .s_http_host_start) ≠
      .s_http_host_dead := by
    cases fa with
    | true => decide
    | false => decide
  rw [parseHost, hu]
  simp only [hbuf]
  cases hloop : hostLoop (if fa then .s_http_userinfo_start else .s_http_host_start)
      (u.set .UF_HOST ⟨pos, 0⟩) pos a with
  | none => rfl
  | some r =>
      obtain ⟨s, w⟩ := r
      have hdead := hostLoop_alive hstart hloop
      cases s <;> first | rfl | exact absurd rfl hdead

/-- `parse_url_char` over a text that is taken. -/
theorem urlLoop_alive {s : State} (hs : s ≠ .s_dead) {old : Option UrlField} {fa : Bool} {u : Url}
    {pos : Nat} {x : List UInt8} {r : Bool × Url} (h : urlLoop s old fa u pos x = some r) :
    x.foldl parseUrlChar s ≠ .s_dead := by
  induction x generalizing s old fa u pos with
  | nil => exact hs
  | cons c x ih =>
      rw [urlLoop] at h
      split at h
      · cases h
      · rename_i hc
        split at h
        · exact ih hc h
        · exact ih hc h

section General

variable {scheme a : List UInt8} (hne : scheme ≠ []) (hchars : ∀ c ∈ scheme, isAlpha c = true)
  (ha : ServerText a) (t : UrlTail)

/-- What the loop over the URL leaves, for any authority. -/
def roughUrl (scheme a : List UInt8) (t : UrlTail) : Url :=
  t.put ((Url.put {} .UF_SCHEMA 0 scheme).put .UF_HOST (scheme.length + 3) a)
    (scheme.length + 3 + a.length)

theorem roughUrl_host (scheme a : List UInt8) (t : UrlTail) :
    (roughUrl scheme a t).field .UF_HOST = span (scheme.length + 3) a := by
  rw [roughUrl, UrlTail.put, Url.put_other (by decide), Url.put_other (by decide),
    Url.put_other (by decide), Url.put_self]
  rw [Url.put_other (by decide)]

theorem roughUrl_schema (scheme a : List UInt8) (t : UrlTail) :
    (roughUrl scheme a t).field .UF_SCHEMA = span 0 scheme := by
  rw [roughUrl, UrlTail.put, Url.put_other (by decide), Url.put_other (by decide),
    Url.put_other (by decide), Url.put_other (by decide), Url.put_self rfl]

theorem absoluteText_authority (scheme a : List UInt8) (t : UrlTail) :
    ((absoluteText scheme a t).drop (scheme.length + 3)).take a.length = a := by
  have hdrop : (absoluteText scheme a t).drop (scheme.length + 3) = a ++ t.text := by
    have htext : absoluteText scheme a t = (scheme ++ bytes "://") ++ (a ++ t.text) := by
      simp [absoluteText]
    have hlen : (scheme ++ bytes "://").length = scheme.length + 3 := by
      rw [List.length_append]
      rfl
    rw [htext, ← hlen, List.drop_left]
  rw [hdrop, List.take_left]

variable (hscheme : scheme.length + 3 < 2 ^ 16) (hlen : a.length < 2 ^ 16)
include hscheme hlen

theorem hostPart_roughUrl (fa : Bool) (hanil : a ≠ []) :
    hostPart (absoluteText scheme a t) (fa, roughUrl scheme a t) =
      (hostLoop (if fa then .s_http_userinfo_start else .s_http_host_start)
        ((roughUrl scheme a t).set .UF_HOST ⟨scheme.length + 3, 0⟩) (scheme.length + 3) a).bind
          fun r => if r.1.accepts then some r.2 else none := by
  have hhost : (roughUrl scheme a t).field .UF_HOST = some ⟨scheme.length + 3, a.length⟩ := by
    rw [roughUrl_host, span, if_neg hanil, Nat.mod_eq_of_lt hscheme, Nat.mod_eq_of_lt hlen]
  have hset : (roughUrl scheme a t).field .UF_HOST ≠ none := by simp [hhost]
  have hsome : ¬(((roughUrl scheme a t).field .UF_SCHEMA).isSome = true ∧
      (roughUrl scheme a t).field .UF_HOST = none) := fun h => hset h.2
  simp only [hostPart]
  rw [if_neg hsome, if_neg hset, parseHost_eq hhost (absoluteText_authority scheme a t)]

include hne hchars ha in
/-- A text with a scheme that is taken: its authority is one of the grammar. -/
theorem authority_taken {v : Url} (h : parseUrl (absoluteText scheme a t) false = some v) :
    ∃ au : Authority, au.text = a := by
  obtain ⟨r, u, hloop, hhost, -⟩ := parseUrl_some h
  have halive : a.foldl parseUrlChar .s_req_server_start ≠ .s_dead := by
    have hrest := hloop
    rw [absoluteText, urlLoop_slashes hne hchars] at hrest
    exact trap_dead.not_entered (urlLoop_alive (by decide) hrest)
  rw [urlLoop_absoluteText hne hchars ha halive] at hloop
  rw [← Option.some.inj hloop] at hhost
  by_cases hanil : a = []
  · have hnone : (roughUrl scheme a t).field .UF_HOST = none := by
      rw [roughUrl_host, hanil]
      rfl
    have hschema : ((roughUrl scheme a t).field .UF_SCHEMA).isSome = true := by
      rw [roughUrl_schema, span, if_neg hne]
      rfl
    have hreject : hostPart (absoluteText scheme a t)
        (decide (('@' : UInt8) ∈ a), roughUrl scheme a t) = none := if_pos ⟨hschema, hnone⟩
    rw [← roughUrl, hreject] at hhost
    cases hhost
  · rw [← roughUrl, hostPart_roughUrl t hscheme hlen _ hanil] at hhost
    obtain ⟨q, hrun, hacc⟩ := Option.bind_eq_some_iff.mp hhost
    have hfinal : q.1.accepts := by
      by_contra hno
      rw [if_neg hno] at hacc
      cases hacc
    rw [← hostLoop_foldl hrun] at hfinal
    obtain ⟨au, -, htext⟩ := exists_authority hfinal
    exact ⟨au, htext⟩

end General

namespace AbsoluteUrl

variable (l : AbsoluteUrl)

/-- The component `f` among the calls of `put`. -/
theorem field_put :
    (l.authority.put ((roughUrl l.scheme l.authority.text l.tail).set .UF_HOST
      ⟨l.authorityPos, 0⟩) l.authorityPos).field = l.field := by
  have hhost : l.authority.host ≠ [] := l.authority.host_ne_nil
  funext f
  cases f with
  | UF_SCHEMA =>
      simp (disch := decide) only [Authority.put, Url.put_other, Url.set_other]
      rw [roughUrl_schema]
      rfl
  | UF_HOST =>
      simp (disch := decide) only [Authority.put, Url.put_other]
      rw [Url.put_of_ne_nil hhost]
      rfl
  | UF_PORT =>
      rw [Authority.put, Url.put_self]
      · rfl
      · simp (disch := decide) only [roughUrl, UrlTail.put, Url.put_other, Url.set_other]
  | UF_PATH | UF_QUERY | UF_FRAGMENT =>
      simp (disch := decide) only [Authority.put, roughUrl, UrlTail.put, Url.put_other,
        Url.set_other]
      rw [Url.put_self]
      · rfl
      · simp (disch := decide) only [Url.put_other]
  | UF_USERINFO =>
      simp (disch := decide) only [Authority.put, Url.put_other]
      rw [Url.put_self]
      · rfl
      · simp (disch := decide) only [roughUrl, UrlTail.put, Url.put_other, Url.set_other]

theorem parseUrl_text (hscheme : l.scheme.length + 3 < 2 ^ 16)
    (hlen : l.authority.text.length < 2 ^ 16) :
    parseUrl l.text false = l.url.withPort l.text := by
  have hnil : l.text ≠ [] := by simp [text, absoluteText, l.scheme_ne]
  have hloop := urlLoop_absoluteText l.scheme_ne l.scheme_chars l.authority.serverText
    l.authority.alive l.tail
  have hat : decide (('@' : UInt8) ∈ l.authority.text) = l.authority.hasAt := by
    rw [Bool.eq_iff_iff, decide_eq_true_iff, l.authority.at_mem_text]
  have hhost : hostPart l.text (l.authority.hasAt, roughUrl l.scheme l.authority.text l.tail) =
      (hostLoop l.authority.start ((roughUrl l.scheme l.authority.text l.tail).set .UF_HOST
        ⟨l.authorityPos, 0⟩) l.authorityPos l.authority.text).bind
          fun r => if r.1.accepts then some r.2 else none :=
    hostPart_roughUrl l.tail hscheme hlen l.authority.hasAt l.authority.text_ne_nil
  have hzero : ∃ off, ((roughUrl l.scheme l.authority.text l.tail).set .UF_HOST
      ⟨l.authorityPos, 0⟩).field .UF_HOST = some ⟨off, 0⟩ :=
    ⟨l.authorityPos, Url.set_self _ _ _⟩
  have hrun := l.authority.hostLoop_text hzero l.authorityPos
  have haccepts : (if l.authority.port = [] then l.authority.hostEnd
      else .s_http_host_port).accepts := by
    split
    · rcases l.authority.hostEnd_cases with hend | hend
      · exact .inl hend
      · exact .inr (.inl hend)
    · exact .inr (.inr rfl)
  have hurl : l.authority.put ((roughUrl l.scheme l.authority.text l.tail).set .UF_HOST
      ⟨l.authorityPos, 0⟩) l.authorityPos = l.url := by
    apply Url.eq_of_field l.field_put
    show (Url.put _ _ _ _).port = 0
    simp only [roughUrl, UrlTail.put, Url.put_port, Url.set]
  rw [hrun, Option.bind_some, if_pos haccepts, hurl] at hhost
  rw [parseUrl_eq hnil, text, hloop, Option.bind_some, ← roughUrl, hat]
  exact congrArg (fun o => o.bind fun u => u.withPort l.text) hhost

/-- Every component is at its place. -/
theorem holds_component (f : UrlField) : Holds l.text (l.place f) (l.component f) := by
  have hwhole : Holds l.text 0 l.text := by
    intro i _
    rw [Nat.zero_add]
  have hparts := hwhole
  nth_rewrite 2 [text] at hparts
  obtain ⟨hscheme, hparts⟩ := holds_append.mp hparts
  obtain ⟨-, hparts⟩ := holds_append.mp hparts
  obtain ⟨hauthority, htail⟩ := holds_append.mp hparts
  obtain ⟨hpath, hrest⟩ := holds_append.mp htail
  obtain ⟨hquery, hfragment⟩ := holds_append.mp hrest
  obtain ⟨huser, hauthority⟩ := holds_append.mp hauthority
  obtain ⟨hhost, hport⟩ := holds_append.mp hauthority
  have hzero : 0 + l.scheme.length + (bytes "://").length = l.authorityPos := by
    rw [Nat.zero_add]
    rfl
  rw [hzero] at huser hhost hport hpath hquery hfragment
  cases f with
  | UF_SCHEMA => exact hscheme
  | UF_USERINFO => exact (holds_append.mp huser).1
  | UF_HOST =>
      show Holds l.text (l.authority.hostPos l.authorityPos) l.authority.host
      unfold Authority.hostPos
      unfold Authority.hostText at hhost
      split
      · rename_i hb
        rw [if_pos hb, ← List.singleton_append, holds_append, holds_append] at hhost
        exact hhost.2.1
      · rename_i hb
        rw [if_neg hb] at hhost
        exact hhost
  | UF_PORT =>
      show Holds l.text (l.authority.portPos l.authorityPos) l.authority.port
      unfold Authority.portText at hport
      split at hport
      · rename_i hnil
        rw [hnil]
        intro i hi
        cases hi
      · rw [← List.singleton_append, holds_append] at hport
        exact hport.2
  | UF_PATH => exact hpath
  | UF_QUERY =>
      show Holds l.text l.queryPos l.tail.query
      unfold UrlTail.queryText at hquery
      split at hquery
      · rw [← List.singleton_append, holds_append] at hquery
        exact hquery.2
      · rename_i hmark
        rw [l.tail.query_mark (Bool.eq_false_iff.mpr hmark)]
        intro i hi
        cases hi
  | UF_FRAGMENT =>
      have hplace : l.authorityPos + l.authority.text.length + l.tail.path.length +
          l.tail.queryText.length + (List.replicate l.tail.hashes ('#' : UInt8)).length =
            l.fragmentPos := by
        rw [List.length_replicate]
        rfl
      have h := (holds_append.mp hfragment).2
      rw [hplace] at h
      exact h

/-- The text of a component: its place is taken modulo `2 ^ 16`. -/
theorem text_component_mod {v : Url} (hv : v.field = l.field) {f : UrlField}
    (hlen : (l.component f).length < 2 ^ 16) :
    v.text f l.text = if l.component f = [] then none
      else some ((l.text.drop (l.place f % 2 ^ 16)).take (l.component f).length) := by
  rw [Url.text, hv, field, span]
  split
  · rfl
  · rw [Option.map_some, Nat.mod_eq_of_lt hlen]

theorem text_component {v : Url} (hv : v.field = l.field) {f : UrlField}
    (hplace : l.place f < 2 ^ 16) (hlen : (l.component f).length < 2 ^ 16) :
    v.text f l.text = if l.component f = [] then none else some (l.component f) := by
  rw [l.text_component_mod hv hlen, Nat.mod_eq_of_lt hplace, (l.holds_component f).slice]

theorem getD_component {v : Url} (hv : v.field = l.field) {f : UrlField}
    (hplace : l.place f < 2 ^ 16) (hlen : (l.component f).length < 2 ^ 16) :
    (v.text f l.text).getD [] = l.component f := by
  rw [l.text_component hv hplace hlen]
  split
  · rename_i hnil
    rw [hnil]
    rfl
  · rfl

end AbsoluteUrl

/-! ## What is taken -/

theorem fragment_taken {x : List UInt8}
    (h : x.foldl parseUrlChar .s_req_fragment ≠ .s_dead) : ∀ c ∈ x, isFragmentChar c = true := by
  have hstep : ∀ c, isFragmentChar c = true ∧ parseUrlChar .s_req_fragment c = .s_req_fragment ∨
      parseUrlChar .s_req_fragment c = .s_dead := by
    intro c
    rw [parseUrlChar_fragment]
    exact ite_cases _ _ _
  obtain ⟨stretch, rest, rfl, hstays, hall, hrest⟩ := exists_stretch hstep x
  rcases hrest with rfl | ⟨c, tail, rfl, hdead⟩
  · rwa [List.append_nil]
  · rw [List.foldl_append, hstays.foldl, List.foldl_cons, hdead] at h
    exact absurd (trap_dead.foldl tail) h

/-- Behind a `#`: more of them, and a fragment. -/
theorem hashes_taken {x : List UInt8}
    (h : x.foldl parseUrlChar .s_req_fragment_start ≠ .s_dead) :
    ∃ n fragment, x = List.replicate n ('#' : UInt8) ++ fragment ∧
      fragment.head? ≠ some ('#' : UInt8) ∧ ∀ c ∈ fragment, isFragmentChar c = true := by
  have hstep : ∀ c : UInt8, c = '#' ∧ parseUrlChar .s_req_fragment_start c = .s_req_fragment_start ∨
      c ≠ '#' ∧ isFragmentChar c = true ∧
        parseUrlChar .s_req_fragment_start c = .s_req_fragment ∨
      parseUrlChar .s_req_fragment_start c = .s_dead := by
    intro c
    rw [parseUrlChar_fragment_start]
    by_cases hhash : c = '#'
    · exact .inl ⟨hhash, if_pos hhash⟩
    · rw [if_neg hhash]
      exact .inr ((ite_cases _ _ _).imp_left fun hkeep => ⟨hhash, hkeep⟩)
  induction x with
  | nil => exact ⟨0, [], rfl, by simp, by simp⟩
  | cons c x ih =>
      rw [List.foldl_cons] at h
      rcases hstep c with ⟨rfl, hkeep⟩ | ⟨hne, hfirst, hnext⟩ | hdead
      · rw [hkeep] at h
        obtain ⟨n, fragment, rfl, hhead, hchars⟩ := ih h
        exact ⟨n + 1, fragment, rfl, hhead, hchars⟩
      · rw [hnext] at h
        refine ⟨0, c :: x, rfl, ?_, List.forall_mem_cons.mpr ⟨hfirst, fragment_taken h⟩⟩
        rw [List.head?_cons]
        exact fun heq => hne (Option.some.inj heq)
      · rw [hdead] at h
        exact absurd (trap_dead.foldl x) h

/-- From a `#` on, or nothing. -/
structure FragmentForm (n : Nat) (fragment : List UInt8) : Prop where
  head : fragment.head? ≠ some ('#' : UInt8)
  chars : ∀ c ∈ fragment, isFragmentChar c = true
  hash : n = 0 → fragment = []

/-- Behind a `?`. -/
theorem query_taken {x : List UInt8}
    (h : x.foldl parseUrlChar .s_req_query_string_start ≠ .s_dead) :
    ∃ query n fragment, x = query ++ (List.replicate n ('#' : UInt8) ++ fragment) ∧
      (∀ c ∈ query, isQueryChar c = true) ∧ FragmentForm n fragment := by
  have hstep : ∀ c : UInt8,
      isQueryChar c = true ∧ parseUrlChar .s_req_query_string c = .s_req_query_string ∨
      c = '#' ∧ parseUrlChar .s_req_query_string c = .s_req_fragment_start ∨
      parseUrlChar .s_req_query_string c = .s_dead := by
    intro c
    rw [parseUrlChar_query, parseUrlChar_query_start]
    exact ite_cases₂ _ _ _ _ _
  obtain ⟨query, rest, rfl, hstays, hall, hrest⟩ := exists_stretch hstep x
  rcases hrest with rfl | ⟨c, tail, rfl, hc⟩
  · exact ⟨query, 0, [], by simp, hall, by simp, by simp, fun _ => rfl⟩
  · -- behind a byte both states of the query are the same
    have hsame : (query ++ c :: tail).foldl parseUrlChar .s_req_query_string_start =
        (query ++ c :: tail).foldl parseUrlChar .s_req_query_string := by
      cases query with
      | nil => rfl
      | cons d l => rfl
    rw [hsame, List.foldl_append, hstays.foldl, List.foldl_cons] at h
    rcases hc with ⟨rfl, hhash⟩ | hdead
    · rw [hhash] at h
      obtain ⟨n, fragment, rfl, hhead, hchars⟩ := hashes_taken h
      exact ⟨query, n + 1, fragment, rfl, hall, hhead, hchars, by simp⟩
    · rw [hdead] at h
      exact absurd (trap_dead.foldl tail) h

/-- Behind the authority: nothing, or from a `/` or a `?` on. -/
theorem tail_taken {s : State} (hs : s.inServer) {x : List UInt8}
    (hx : x = [] ∨ ∃ c tail, x = c :: tail ∧ (c = ('/' : UInt8) ∨ c = ('?' : UInt8)))
    (h : x.foldl parseUrlChar s ≠ .s_dead) : ∃ t : UrlTail, t.text = x := by
  have hstep : ∀ c : UInt8, isUrlChar c = true ∧ parseUrlChar .s_req_path c = .s_req_path ∨
      c = '?' ∧ parseUrlChar .s_req_path c = .s_req_query_string_start ∨
      c = '#' ∧ parseUrlChar .s_req_path c = .s_req_fragment_start ∨
      parseUrlChar .s_req_path c = .s_dead := by
    intro c
    rw [parseUrlChar_path]
    exact ite_cases₃ _ _ _ _ _ _ _
  rcases hx with rfl | ⟨c, x, rfl, rfl | rfl⟩
  · exact ⟨⟨[], false, [], 0, [], by simp, by simp, by simp, by simp, by simp, by simp, by simp,
      by simp⟩, rfl⟩
  · rw [List.foldl_cons, hs.slash] at h
    obtain ⟨path, rest, rfl, hstays, hpath, hrest⟩ := exists_stretch hstep x
    have hall : ∀ c ∈ ('/' : UInt8) :: path, isUrlChar c = true :=
      List.forall_mem_cons.mpr ⟨by decide, hpath⟩
    rw [List.foldl_append, hstays.foldl] at h
    rcases hrest with rfl | ⟨c, tail, rfl, hc⟩
    · exact ⟨⟨('/' : UInt8) :: path, false, [], 0, [], by simp, hall, by simp, by simp, by simp,
        by simp, by simp, by simp⟩, by simp [UrlTail.text, UrlTail.queryText, UrlTail.fragmentText]⟩
    · rw [List.foldl_cons] at h
      rcases hc with ⟨rfl, hmark⟩ | ⟨rfl, hhash⟩ | hdead
      · rw [hmark] at h
        obtain ⟨query, n, fragment, rfl, hquery, hform⟩ := query_taken h
        exact ⟨⟨('/' : UInt8) :: path, true, query, n, fragment, by simp, hall, hquery, by simp,
          hform.head, hform.chars, hform.hash, by simp⟩,
          by simp [UrlTail.text, UrlTail.queryText, UrlTail.fragmentText]⟩
      · rw [hhash] at h
        obtain ⟨n, fragment, rfl, hhead, hchars⟩ := hashes_taken h
        exact ⟨⟨('/' : UInt8) :: path, false, [], n + 1, fragment, by simp, hall, by simp, by simp,
          hhead, hchars, by simp, by simp⟩,
          by simp [UrlTail.text, UrlTail.queryText, UrlTail.fragmentText, List.replicate_succ]⟩
      · rw [hdead] at h
        exact absurd (trap_dead.foldl tail) h
  · rw [List.foldl_cons, hs.mark] at h
    obtain ⟨query, n, fragment, rfl, hquery, hform⟩ := query_taken h
    exact ⟨⟨[], true, query, n, fragment, by simp, by simp, hquery, by simp, hform.head,
      hform.chars, hform.hash, by simp⟩,
      by simp [UrlTail.text, UrlTail.queryText, UrlTail.fragmentText]⟩

/-- What follows `://`: an authority, as far as the URL states can tell, and a tail. -/
theorem server_taken {x : List UInt8}
    (h : x.foldl parseUrlChar .s_req_server_start ≠ .s_dead) :
    ∃ (a : List UInt8) (t : UrlTail), x = a ++ t.text ∧ ServerText a := by
  have hchar : ∀ c : UInt8, (c ≠ '/' ∧ c ≠ '?') ∨ (c = '/' ∨ c = '?') := by
    intro c
    by_cases hc : c = '/' ∨ c = '?'
    · exact .inr hc
    · exact .inl (not_or.mp hc)
  obtain ⟨a, rest, rfl, ha, hx⟩ := exists_split hchar x
  have hserver : State.inServer .s_req_server_start := .inl rfl
  have hend := hserver.foldl ha (trap_dead.not_entered h)
  rw [List.foldl_append] at h
  obtain ⟨t, rfl⟩ := tail_taken hend hx h
  exact ⟨a, t, rfl, ha⟩

/-- A scheme without an authority. -/
theorem hostPart_schemeOnly {scheme : List UInt8} (hne : scheme ≠ []) (buf : List UInt8)
    (fa : Bool) :
    hostPart buf (fa, Url.put {} .UF_SCHEMA 0 scheme) = none := by
  apply if_pos
  constructor
  · rw [Url.put_of_ne_nil hne, span, if_neg hne]
    rfl
  · rw [Url.put_other (by decide)]

theorem urlLoop_dead {s : State} {c : UInt8} (hc : parseUrlChar s c = .s_dead)
    (old : Option UrlField) (fa : Bool) (u : Url) (pos : Nat) (x : List UInt8) :
    urlLoop s old fa u pos (c :: x) = none := by
  rw [urlLoop, hc]
  rfl

/-- A state that goes on with one byte only, in a loop that has not found all its components. -/
theorem urlLoop_expects {s t : State} {d : UInt8} (ht : t ≠ .s_dead) (hf : t.urlField = none)
    (hstep : ∀ c, c = d ∧ parseUrlChar s c = t ∨ parseUrlChar s c = .s_dead)
    {old : Option UrlField} {fa : Bool} {u : Url} {pos : Nat} {x : List UInt8} {r : Bool × Url}
    (h : urlLoop s old fa u pos x = some r) (hmore : r.2 ≠ u) :
    ∃ rest, x = d :: rest ∧ urlLoop t old fa u (pos + 1) rest = some r := by
  cases x with
  | nil => exact absurd (congrArg Prod.snd (Option.some.inj h)).symm hmore
  | cons c rest =>
      rcases hstep c with ⟨rfl, hto⟩ | hto
      · rw [urlLoop_delimiter hto ht hf] at h
        exact ⟨rest, rfl, h⟩
      · rw [urlLoop_dead hto] at h
        cases h

/-- A text that is taken begins with a `/` or a `*`, or it is an absolute URL. -/
theorem exists_absoluteUrl {s : List UInt8} {v : Url} (hlen : s.length < 2 ^ 16)
    (h : parseUrl s false = some v) :
    (∃ c rest, s = c :: rest ∧ (c = ('/' : UInt8) ∨ c = ('*' : UInt8))) ∨
      ∃ l : AbsoluteUrl, l.text = s := by
  have hschema : ∀ c : UInt8, isAlpha c = true ∧ parseUrlChar .s_req_schema c = .s_req_schema ∨
      c = ':' ∧ parseUrlChar .s_req_schema c = .s_req_schema_slash ∨
      parseUrlChar .s_req_schema c = .s_dead := by
    intro c
    rw [parseUrlChar_schema]
    exact ite_cases₂ _ _ _ _ _
  have hslash : ∀ c : UInt8,
      c = '/' ∧ parseUrlChar .s_req_schema_slash c = .s_req_schema_slash_slash ∨
      parseUrlChar .s_req_schema_slash c = .s_dead := by
    intro c
    rw [parseUrlChar_schema_slash]
    exact ite_cases _ _ _
  have hslash' : ∀ c : UInt8,
      c = '/' ∧ parseUrlChar .s_req_schema_slash_slash c = .s_req_server_start ∨
      parseUrlChar .s_req_schema_slash_slash c = .s_dead := by
    intro c
    rw [parseUrlChar_schema_slash_slash]
    exact ite_cases _ _ _
  obtain ⟨r, u, hloop, hhost, -⟩ := parseUrl_some h
  cases s with
  | nil => cases h
  | cons c s =>
      by_cases horigin : c = ('/' : UInt8) ∨ c = ('*' : UInt8)
      · exact .inl ⟨c, s, rfl, horigin⟩
      right
      by_cases hfirst : isAlpha c = true
      swap
      · rw [urlLoop_dead (by rw [parseUrlChar_spaces, if_neg horigin, if_neg hfirst])] at hloop
        cases hloop
      obtain ⟨more, rest, rfl, -, hmore, hrest⟩ := exists_stretch hschema s
      have hchars : ∀ b ∈ c :: more, isAlpha b = true := List.forall_mem_cons.mpr ⟨hfirst, hmore⟩
      have hne : c :: more ≠ [] := by simp
      -- nothing but a scheme is left without a host
      have hshort : r.2 ≠ Url.put {} .UF_SCHEMA 0 (c :: more) := by
        intro heq
        have hnone := hostPart_schemeOnly hne (c :: (more ++ rest)) r.1
        rw [← heq, hhost] at hnone
        cases hnone
      rw [← List.cons_append, urlLoop_scheme hne hchars] at hloop
      rcases hrest with rfl | ⟨b, rest, rfl, ⟨rfl, hcolon⟩ | hto⟩
      · exact absurd (congrArg Prod.snd (Option.some.inj hloop)).symm hshort
      · rw [urlLoop_delimiter hcolon (by decide) rfl] at hloop
        obtain ⟨rest, rfl, hloop⟩ := urlLoop_expects (by decide) rfl hslash hloop hshort
        obtain ⟨rest, rfl, hloop⟩ := urlLoop_expects (by decide) rfl hslash' hloop hshort
        obtain ⟨a, t, rfl, ha⟩ := server_taken (urlLoop_alive (by decide) hloop)
        have htext : c :: (more ++ (':' : UInt8) :: ('/' : UInt8) :: ('/' : UInt8) ::
            (a ++ t.text)) = absoluteText (c :: more) a t := rfl
        have hsize : (absoluteText (c :: more) a t).length =
            (c :: more).length + (3 + (a.length + t.text.length)) := by
          rw [absoluteText, List.length_append, List.length_append, List.length_append]
          rfl
        rw [htext] at h hlen
        rw [htext]
        obtain ⟨au, rfl⟩ := authority_taken hne hchars ha t (by omega) (by omega) h
        exact ⟨⟨c :: more, au, t, hne, hchars⟩, rfl⟩
      · rw [urlLoop_dead hto] at hloop
        cases hloop

/-! ## Origin forms -/

/-- The states behind the authority. -/
def State.inTail (s : State) : Prop :=
  s = .s_req_path ∨ s = .s_req_query_string_start ∨ s = .s_req_query_string ∨
    s = .s_req_fragment_start ∨ s = .s_req_fragment

theorem State.inTail.step {s : State} (h : s.inTail) (c : UInt8)
    (halive : parseUrlChar s c ≠ .s_dead) : (parseUrlChar s c).inTail := by
  have hquery : parseUrlChar .s_req_query_string_start c ≠ .s_dead →
      (parseUrlChar .s_req_query_string_start c).inTail := by
    rw [parseUrlChar_query_start]
    intro hne
    rcases ite_cases₂ (isQueryChar c = true) (c = '#') State.s_req_query_string
      .s_req_fragment_start .s_dead with ⟨-, hto⟩ | ⟨-, hto⟩ | hto
    · rw [hto]
      exact .inr (.inr (.inl rfl))
    · rw [hto]
      exact .inr (.inr (.inr (.inl rfl)))
    · exact absurd hto hne
  rcases h with rfl | rfl | rfl | rfl | rfl
  · rw [parseUrlChar_path] at halive ⊢
    rcases ite_cases₃ (isUrlChar c = true) (c = '?') (c = '#') State.s_req_path
      .s_req_query_string_start .s_req_fragment_start .s_dead with
      ⟨-, hto⟩ | ⟨-, hto⟩ | ⟨-, hto⟩ | hto
    · rw [hto]
      exact .inl rfl
    · rw [hto]
      exact .inr (.inl rfl)
    · rw [hto]
      exact .inr (.inr (.inr (.inl rfl)))
    · exact absurd hto halive
  · exact hquery halive
  · exact hquery halive
  · rw [parseUrlChar_fragment_start] at halive ⊢
    rcases ite_cases₂ (c = '#') (isFragmentChar c = true) State.s_req_fragment_start
      .s_req_fragment .s_dead with ⟨-, hto⟩ | ⟨-, hto⟩ | hto
    · rw [hto]
      exact .inr (.inr (.inr (.inl rfl)))
    · rw [hto]
      exact .inr (.inr (.inr (.inr rfl)))
    · exact absurd hto halive
  · rw [parseUrlChar_fragment] at halive ⊢
    rcases ite_cases (isFragmentChar c = true) State.s_req_fragment .s_dead with ⟨-, hto⟩ | hto
    · rw [hto]
      exact .inr (.inr (.inr (.inr rfl)))
    · exact absurd hto halive

theorem State.inTail.urlField {s : State} (h : s.inTail) :
    s.urlField ≠ some .UF_SCHEMA ∧ s.urlField ≠ some .UF_HOST := by
  rcases h with rfl | rfl | rfl | rfl | rfl
  · decide
  · decide
  · decide
  · decide
  · decide

theorem Url.grow_other {u : Url} {f g : UrlField} (h : g ≠ f) : (u.grow f).field g = u.field g := by
  unfold grow
  split
  · rfl
  · exact set_other h _

/-- From the path on the loop leaves the scheme and the host alone. -/
theorem urlLoop_inTail {s : State} (hs : s.inTail) {old : Option UrlField} {fa : Bool} {u : Url}
    {pos : Nat} {x : List UInt8} {r : Bool × Url} (h : urlLoop s old fa u pos x = some r)
    {g : UrlField} (hg : g = .UF_SCHEMA ∨ g = .UF_HOST) : r.2.field g = u.field g := by
  induction x generalizing s old fa u pos with
  | nil =>
      cases h
      rfl
  | cons c x ih =>
      rw [urlLoop] at h
      split at h
      · cases h
      · rename_i halive
        have hnext := hs.step c halive
        split at h
        · exact ih hnext h
        · rename_i f hf
          have hother : g ≠ f := by
            obtain ⟨hschema, hhost⟩ := hnext.urlField
            rintro rfl
            rcases hg with rfl | rfl
            · exact hschema hf
            · exact hhost hf
          rw [ih hnext h]
          split
          · exact Url.grow_other hother
          · exact Url.set_other hother _

/-- A text that begins with `/` or `*` has no scheme. -/
theorem origin_no_schema {c : UInt8} {rest : List UInt8} (hc : c = '/' ∨ c = '*') {v : Url}
    (h : parseUrl (c :: rest) false = some v) : v.field .UF_SCHEMA = none := by
  obtain ⟨r, u, hloop, hhost, hport⟩ := parseUrl_some h
  have hfirst : parseUrlChar .s_req_spaces_before_url c = .s_req_path := by
    rw [parseUrlChar_spaces, if_pos hc]
  have hpath : State.inTail .s_req_path := .inl rfl
  have hrun : urlLoop .s_req_path (some .UF_PATH) false (Url.put {} .UF_PATH 0 [c]) 1 rest =
      some r := by
    rw [← hloop, urlLoop]
    simp only [hfirst]
    rfl
  have hschema := urlLoop_inTail hpath hrun (.inl rfl)
  have hnohost := urlLoop_inTail hpath hrun (.inr rfl)
  rw [Url.put_other (by decide)] at hschema hnohost
  have hsame : hostPart (c :: rest) r = some r.2 := by
    unfold hostPart
    rw [hschema, hnohost]
    rfl
  rw [hsame] at hhost
  rw [Url.withPort_field hport, ← Option.some.inj hhost, hschema]

end Gxh.HttpParser
