import Gxh.Uri.Printed

/-!
# `Uri::Create` on the text of `Uri::toString`

`round_trips_iff` says of which accepted strings below 65536 bytes the `Uri` comes back from its
own text. The host of a literal goes into the text without its brackets, a `Uri` of an origin form
has no scheme to write, and the `:0` and the `/` that `toString` adds may push a component past the
16 bits of an offset.
-/

namespace Gxh

open HttpParser

namespace Uri

/-- The components are the same; the path and the port are those the getters give. -/
structure Same (v u : Uri) : Prop where
  scheme : v.scheme = u.scheme
  userinfo : v.userinfo = u.userinfo
  host : v.host = u.host
  path : v.getPath = u.getPath
  query : v.query = u.query
  fragment : v.fragment = u.fragment
  port : v.getPort = u.getPort

/-- `Create` takes the text of the `Uri`, and what it makes of it is the same. -/
def RoundTrips (u : Uri) : Prop := ∃ v, create u.toString = .ok (some v) ∧ v.Same u

theorem ofUrl_some {parser : Url} {urlstr : List UInt8} {v : Uri}
    (h : ofUrl parser urlstr = .ok (some v)) :
    v.scheme = (parser.text .UF_SCHEMA urlstr).getD [] ∧
    v.userinfo = (parser.text .UF_USERINFO urlstr).getD [] ∧
    v.host = (parser.text .UF_HOST urlstr).getD [] ∧
    v.path = (parser.text .UF_PATH urlstr).getD [] ∧
    v.query = (parser.text .UF_QUERY urlstr).getD [] ∧
    v.fragment = (parser.text .UF_FRAGMENT urlstr).getD [] := by
  unfold ofUrl at h
  simp only at h
  split at h
  · cases hport : stoi _ with
    | error e =>
        rw [hport] at h
        cases h
    | ok port =>
        rw [hport] at h
        cases h
        exact ⟨rfl, rfl, rfl, rfl, rfl, rfl⟩
  · cases h
    exact ⟨rfl, rfl, rfl, rfl, rfl, rfl⟩

theorem create_some {urlstr : List UInt8} {v : Uri} (h : create urlstr = .ok (some v)) :
    ∃ parser, parseUrl urlstr false = some parser ∧ ofUrl parser urlstr = .ok (some v) := by
  unfold create at h
  split at h
  · cases h
  · rename_i parser hparse
    exact ⟨parser, hparse, h⟩

end Uri

namespace HttpParser.AbsoluteUrl

variable (l : AbsoluteUrl)

/-- A component is found at `pos`: the offset fits into 16 bits, or what lies 65536 bytes before
happens to be the same. -/
def Lands (pos : Nat) (x : List UInt8) : Prop :=
  x = [] ∨ pos < 2 ^ 16 ∨ ((l.scheme ++ bytes "://").drop (pos - 2 ^ 16)).take x.length = x

/-- The host needs no brackets, and the components are found in the text. -/
structure Fits : Prop where
  name : ∀ c ∈ l.authority.host, isHostChar c = true
  path : l.printedPathPos < 2 ^ 16
  query : l.Lands l.printedQueryPos l.tail.query
  fragment : l.Lands l.printedFragmentPos l.tail.fragment

/-! ## The host -/

theorem printed_serverText : ServerText l.printedAuthority := by
  have hserver : ∀ c, isServerChar c = true → c ≠ ('/' : UInt8) ∧ c ≠ ('?' : UInt8) :=
    fun c hc => ⟨(isServerChar_keeps hc).1, (isServerChar_keeps hc).2.1⟩
  obtain ⟨n, hn, -⟩ := l.exists_port
  intro c hc
  unfold printedAuthority printedUser at hc
  rw [l.to_string_port hn] at hc
  rcases List.mem_append.mp hc with hc | hc
  · rcases List.mem_append.mp hc with hc | hc
    · exact hserver c (l.authority.userinfo_server c hc)
    · split at hc
      · cases hc
      · rw [List.mem_singleton.mp hc]
        decide
  · rcases List.mem_append.mp hc with hc | hc
    · exact hserver c (l.authority.host_server c hc)
    · split at hc
      · cases hc
      · rcases List.mem_append.mp hc with hc | hc
        · rw [List.mem_singleton.mp hc]
          decide
        · exact hserver c (isServerChar_of_num (isNum_of_mem_decimal c hc))

/-- An authority with the text and the user information of the printed one has no brackets. -/
theorem authority_of_printed {au : Authority} (htext : au.text = l.printedAuthority)
    (huser : au.userinfo = l.authority.userinfo) :
    au.bracketed = false ∧ au.userText = l.printedUser := by
  cases hhost : l.authority.host with
  | nil => exact absurd hhost l.authority.host_ne_nil
  | cons d more =>
      have hmem : d ∈ l.authority.host := by
        rw [hhost]
        exact List.mem_cons_self
      have hbracket : d ≠ '[' := l.authority.host_ne_bracket d hmem
      have hat : d ≠ '@' := (isServerChar_keeps (l.authority.host_server d hmem)).2.2.1
      -- from the host on
      have hopen : ∀ rest, au.hostText ++ au.portText = d :: rest → au.bracketed = false := by
        intro rest heq
        by_contra hb
        rw [Bool.not_eq_false] at hb
        rw [Authority.hostText, if_pos hb] at heq
        exact hbracket (List.cons.inj heq).1.symm
      unfold Authority.text printedAuthority printedUser at htext
      rw [hhost] at htext
      unfold Authority.userText at htext ⊢
      unfold printedUser
      rw [huser] at htext ⊢
      by_cases hnil : l.authority.userinfo = []
      · have hno : au.hasAt = false := by
          by_contra h
          rw [Bool.not_eq_false] at h
          rw [hnil, if_pos h] at htext
          exact hat (List.cons.inj htext).1.symm
        rw [hnil, hno] at htext ⊢
        exact ⟨hopen _ htext, rfl⟩
      · have hyes : au.hasAt = true := by
          by_contra h
          exact hnil (huser ▸ au.userinfo_at (Bool.eq_false_iff.mpr h))
        rw [if_neg hnil, if_pos hyes] at htext ⊢
        exact ⟨hopen _ (List.append_cancel_left htext), rfl⟩

section Short

variable (hlen : l.text.length < 2 ^ 16)
include hlen

/-- A `Uri` that comes back with its user information and its host has a name for a host. -/
theorem name_of_created {v : Uri} (hcreate : Uri.create l.uri.toString = .ok (some v))
    (huser : v.userinfo = l.uri.userinfo) (hhost : v.host = l.uri.host) :
    ∀ c ∈ l.authority.host, isHostChar c = true := by
  obtain ⟨hsizes, hpos⟩ := l.text_sizes
  have hprinted := l.length_printedAuthority_le
  obtain ⟨w, hparse, hof⟩ := Uri.create_some hcreate
  rw [l.toString_uri] at hparse hof
  obtain ⟨au, hau⟩ := authority_taken l.scheme_ne l.scheme_chars l.printed_serverText
    l.printedTail (by omega) (by omega) hparse
  let r : AbsoluteUrl := ⟨l.scheme, au, l.printedTail, l.scheme_ne, l.scheme_chars⟩
  have hscheme : r.scheme.length = l.scheme.length := rfl
  have hauthority : r.authority.text.length = l.printedAuthority.length := by rw [← hau]
  have htext : absoluteText l.scheme l.printedAuthority l.printedTail = r.text := by
    rw [← hau]
    rfl
  rw [htext] at hparse hof
  rw [r.parseUrl_text (by omega) (by omega)] at hparse
  have hw : w.field = r.field := Url.withPort_field hparse
  obtain ⟨-, hofuser, hofhost, -⟩ := Uri.ofUrl_some hof
  have hsum := r.length_authority
  have hauser : au.userinfo = l.authority.userinfo := by
    have hle : r.authority.userinfo.length ≤ r.authority.userText.length := by
      rw [Authority.userText, List.length_append]
      exact Nat.le_add_right _ _
    have hplace : r.place .UF_USERINFO = l.scheme.length + 3 := rfl
    have hread := r.getD_component hw (f := .UF_USERINFO) (by omega)
      (by show r.authority.userinfo.length < _; omega)
    exact hread.symm.trans (hofuser.symm.trans huser)
  obtain ⟨hb, hutext⟩ := l.authority_of_printed hau hauser
  have hahost : au.host = l.authority.host := by
    have hle := r.length_host_le
    have huserlen := l.length_printedUser_le
    have hold := l.length_authority
    have hhostlen := l.length_host_le
    have hone : 0 < l.authority.host.length :=
      List.length_pos_of_ne_nil l.authority.host_ne_nil
    have hplace : r.place .UF_HOST = l.scheme.length + 3 + l.printedUser.length := by
      show au.hostPos (l.scheme.length + 3) = _
      rw [Authority.hostPos, hb, hutext]
      rfl
    have hread := r.getD_component hw (f := .UF_HOST) (by omega)
      (by show r.authority.host.length < _; omega)
    exact hread.symm.trans (hofhost.symm.trans hhost)
  have hform := au.host_form
  rw [hb, if_neg Bool.false_ne_true, hahost] at hform
  exact hform.2

end Short

/-! ## The places in the text -/

section Name

variable (hname : IsName l.authority.host)

theorem place_path : (l.reprint hname).place .UF_PATH = l.printedPathPos := by
  show l.scheme.length + 3 + (l.reprint hname).authority.text.length = _
  rw [l.reprint_authority hname]
  rfl

theorem place_query : (l.reprint hname).place .UF_QUERY = l.printedQueryPos := by
  show (l.reprint hname).place .UF_PATH + l.uri.getPath.length + 1 = _
  rw [l.place_path hname]
  rfl

theorem place_fragment (hne : l.tail.fragment ≠ []) :
    (l.reprint hname).place .UF_FRAGMENT = l.printedFragmentPos := by
  have hquery : l.printedTail.queryText.length =
      if l.tail.query = [] then 0 else l.tail.query.length + 1 := by
    show (if decide (l.tail.query ≠ []) then ('?' : UInt8) :: l.tail.query else []).length = _
    by_cases hnil : l.tail.query = []
    · simp [hnil]
    · simp [hnil]
  show (l.reprint hname).place .UF_PATH + l.uri.getPath.length + l.printedTail.queryText.length +
    (if l.tail.fragment = [] then 0 else 1) = _
  rw [l.place_path hname, hquery, if_neg hne]
  rfl

/-- Past 16 bits an offset is one of the first two bytes of the text. -/
theorem wrapped_text {pos n : Nat} (hpos : 2 ^ 16 ≤ pos) (hend : pos + n ≤ 65538) :
    ((l.reprint hname).text.drop (pos % 2 ^ 16)).take n =
      ((l.scheme ++ bytes "://").drop (pos - 2 ^ 16)).take n := by
  have hmod : pos % 2 ^ 16 = pos - 2 ^ 16 := by omega
  have hlen : (l.scheme ++ bytes "://").length = l.scheme.length + 3 := by
    rw [List.length_append]
    rfl
  have hscheme : 0 < l.scheme.length := List.length_pos_of_ne_nil l.scheme_ne
  have htext : (l.reprint hname).text = (l.scheme ++ bytes "://") ++
      ((l.reprint hname).authority.text ++ l.printedTail.text) := by
    rw [List.append_assoc]
    rfl
  rw [hmod, htext, List.drop_append_of_le_length (by omega),
    List.take_append_of_le_length (by rw [List.length_drop]; omega)]

/-- When a component is read from the text as it was. -/
theorem read_iff_lands {w : Url} (hw : w.field = (l.reprint hname).field) {f : UrlField}
    {pos : Nat} {x : List UInt8} (hx : (l.reprint hname).component f = x)
    (hplace : x ≠ [] → (l.reprint hname).place f = pos) (hsmall : x.length < 2 ^ 16)
    (hend : x ≠ [] → pos + x.length ≤ 65538) :
    (w.text f (l.reprint hname).text).getD [] = x ↔ l.Lands pos x := by
  by_cases hnil : x = []
  · have hread : w.text f (l.reprint hname).text = none := by
      rw [Url.text, hw, field, span, hx, if_pos hnil]
      rfl
    rw [hread, hnil]
    exact ⟨fun _ => .inl rfl, fun _ => rfl⟩
  · have hpos : 0 < x.length := List.length_pos_of_ne_nil hnil
    have hle := hend hnil
    by_cases hfits : pos < 2 ^ 16
    · have hread := (l.reprint hname).getD_component hw (f := f) (by rw [hplace hnil]; exact hfits)
        (by rw [hx]; exact hsmall)
      rw [hread, hx]
      exact ⟨fun _ => .inr (.inl hfits), fun _ => rfl⟩
    · have hread := (l.reprint hname).text_component_mod hw (f := f)
        (by rw [hx]; exact hsmall)
      rw [hread, hx, if_neg hnil, hplace hnil, l.wrapped_text hname (Nat.not_lt.mp hfits) hle,
        Option.getD_some]
      constructor
      · exact fun h => .inr (.inr h)
      · rintro (h | h | h)
        · exact absurd h hnil
        · exact absurd h hfits
        · exact h

theorem query_read (hlen : l.text.length < 2 ^ 16) {w : Url}
    (hw : w.field = (l.reprint hname).field) :
    (w.text .UF_QUERY (l.reprint hname).text).getD [] = l.tail.query ↔
      l.Lands l.printedQueryPos l.tail.query := by
  have hsmall := l.length_query_le
  refine l.read_iff_lands hname hw rfl (fun _ => l.place_query hname) (by omega) ?_
  intro hne
  have hend := l.printedQueryPos_le hne
  omega

theorem fragment_read (hlen : l.text.length < 2 ^ 16) {w : Url}
    (hw : w.field = (l.reprint hname).field) :
    (w.text .UF_FRAGMENT (l.reprint hname).text).getD [] = l.tail.fragment ↔
      l.Lands l.printedFragmentPos l.tail.fragment := by
  have hsmall := l.length_fragment_le
  refine l.read_iff_lands hname hw rfl (l.place_fragment hname) (by omega) ?_
  intro hne
  have hend := l.printedFragmentPos_le hne
  omega

/-- A path past 16 bits is lost: none of the bytes read instead begins one. -/
theorem path_lost (hlen : l.text.length < 2 ^ 16) {w : Url} (hw : w.field = (l.reprint hname).field)
    {v : Uri} (hv : v.path = (w.text .UF_PATH (l.reprint hname).text).getD [])
    (hfar : 2 ^ 16 ≤ l.printedPathPos) : v.getPath ≠ l.uri.getPath := by
  obtain ⟨hsizes, hscheme⟩ := l.text_sizes
  have hauthority := l.length_printedAuthority_le
  have hpathlen := l.length_getPath_le
  have hpos : 0 < l.uri.getPath.length := List.length_pos_of_ne_nil (l.uri.getPath_ne_nil)
  have hend : l.printedPathPos + l.uri.getPath.length ≤ 65538 := by
    unfold printedPathPos
    omega
  have hne : (l.reprint hname).component .UF_PATH ≠ [] := l.uri.getPath_ne_nil
  have hread := (l.reprint hname).text_component_mod hw (f := .UF_PATH)
    (by show l.uri.getPath.length < _; omega)
  rw [if_neg hne, l.place_path hname] at hread
  change _ = some (((l.reprint hname).text.drop (l.printedPathPos % 2 ^ 16)).take
    l.uri.getPath.length) at hread
  rw [l.wrapped_text hname hfar hend] at hread
  rw [hread, Option.getD_some] at hv
  intro hsame
  -- the first byte of the path
  have hslash : l.uri.getPath.head? = some ('/' : UInt8) := by
    cases hpath : l.uri.getPath with
    | nil => exact absurd hpath (l.uri.getPath_ne_nil)
    | cons c rest =>
        rw [List.head?_cons, l.printedTail.path_slash c]
        show c ∈ l.uri.getPath.head?
        rw [hpath]
        rfl
  have hhead : v.path.head? = (l.scheme ++ bytes "://")[l.printedPathPos - 2 ^ 16]? := by
    rw [hv, List.head?_take, if_neg (by omega), List.head?_drop]
  have hnil : v.path ≠ [] := by
    intro hnil
    rw [hnil, List.head?_nil, eq_comm, List.getElem?_eq_none_iff, List.length_append] at hhead
    have hthree : (bytes "://").length = 3 := rfl
    omega
  have hvpath : v.getPath = v.path := if_neg hnil
  rw [← hsame, hvpath, hhead] at hslash
  have hletter : ∀ c, isAlpha c = true → c ≠ ('/' : UInt8) :=
    fun c hc heq => isAlpha_ne hc (.inl heq)
  have hone : l.printedPathPos - 2 ^ 16 = 0 ∨ l.printedPathPos - 2 ^ 16 = 1 := by omega
  have hchars := l.scheme_chars
  cases hs : l.scheme with
  | nil => exact l.scheme_ne hs
  | cons c rest =>
      rw [hs] at hslash hchars
      rcases hone with hzero | hone
      · rw [hzero] at hslash
        exact hletter c (hchars c List.mem_cons_self) (Option.some.inj hslash)
      · rw [hone] at hslash
        cases rest with
        | nil => exact absurd (Option.some.inj hslash) (by decide)
        | cons d rest =>
            have hd : isAlpha d = true := hchars d (List.mem_cons_of_mem _ List.mem_cons_self)
            exact hletter d hd (Option.some.inj hslash)

/-! ## There and back -/

/-- The places before the path. -/
theorem place_before {f : UrlField} (hfar : l.printedPathPos < 2 ^ 16)
    (hf : f = .UF_SCHEMA ∨ f = .UF_USERINFO ∨ f = .UF_HOST ∨ f = .UF_PORT) :
    (l.reprint hname).place f < 2 ^ 16 ∨ (l.reprint hname).component f = [] := by
  have hplace := l.place_path hname
  have hsum := (l.reprint hname).length_authority
  have hpath : (l.reprint hname).place .UF_PATH =
      (l.reprint hname).authorityPos + (l.reprint hname).authority.text.length := rfl
  have hhost : (l.reprint hname).place .UF_HOST =
      (l.reprint hname).authorityPos + (l.reprint hname).authority.userText.length := rfl
  have hport : (l.reprint hname).place .UF_PORT = (l.reprint hname).authorityPos +
      (l.reprint hname).authority.userText.length +
        (l.reprint hname).authority.hostText.length + 1 := rfl
  rcases hf with rfl | rfl | rfl | rfl
  · left
    show 0 < 2 ^ 16
    decide
  · left
    show (l.reprint hname).authorityPos < _
    omega
  · left
    omega
  · by_cases hnil : (l.reprint hname).component .UF_PORT = []
    · exact .inr hnil
    · left
      have htext : (l.reprint hname).authority.portText.length =
          ((l.reprint hname).component .UF_PORT).length + 1 := by
        rw [Authority.portText]
        exact congrArg List.length (if_neg hnil)
      omega

/-- The components that the text has before the path are read back. -/
theorem read_before {f : UrlField} (hfar : l.printedPathPos < 2 ^ 16)
    (hf : f = .UF_SCHEMA ∨ f = .UF_USERINFO ∨ f = .UF_HOST ∨ f = .UF_PORT) {w : Url}
    (hw : w.field = (l.reprint hname).field)
    (hsmall : ((l.reprint hname).component f).length < 2 ^ 16) :
    w.text f (l.reprint hname).text = if (l.reprint hname).component f = [] then none
      else some ((l.reprint hname).component f) := by
  rcases l.place_before hname hfar hf with hplace | hnil
  · exact (l.reprint hname).text_component hw hplace hsmall
  · rw [Url.text, hw, field, span, if_pos hnil, if_pos hnil]
    rfl

theorem sizes_before (hlen : l.text.length < 2 ^ 16) {f : UrlField}
    (hf : f = .UF_SCHEMA ∨ f = .UF_USERINFO ∨ f = .UF_HOST ∨ f = .UF_PORT) :
    ((l.reprint hname).component f).length < 2 ^ 16 := by
  obtain ⟨hsizes, -⟩ := l.text_sizes
  have hauthority := l.length_printedAuthority_le
  have hsum := (l.reprint hname).length_authority
  rw [l.reprint_authority hname] at hsum
  rcases hf with rfl | rfl | rfl | rfl
  · show l.scheme.length < _
    omega
  · have hle : (l.reprint hname).authority.userinfo.length ≤
        (l.reprint hname).authority.userText.length := by
      rw [Authority.userText, List.length_append]
      exact Nat.le_add_right _ _
    show (l.reprint hname).authority.userinfo.length < _
    omega
  · have hle := (l.reprint hname).length_host_le
    show (l.reprint hname).authority.host.length < _
    omega
  · have hle : (l.reprint hname).authority.port.length ≤
        (l.reprint hname).authority.portText.length := by
      unfold Authority.portText
      split
      · rename_i hnil
        rw [hnil]
      · exact Nat.le_succ _
    show (l.reprint hname).authority.port.length < _
    omega

/-- What `http_parser_parse_url` makes of the text. -/
theorem parseUrl_printed (hlen : l.text.length < 2 ^ 16) :
    parseUrl l.uri.toString false =
      (l.reprint hname).url.withPort (l.reprint hname).text := by
  obtain ⟨hsizes, -⟩ := l.text_sizes
  have hauthority := l.length_printedAuthority_le
  rw [← l.reprint_text hname]
  apply (l.reprint hname).parseUrl_text
  · show l.scheme.length + 3 < _
    omega
  · rw [l.reprint_authority hname]
    omega

/-- The `Uri` of the text, where everything is found. -/
def reread : Uri := { l.uri with path := l.uri.getPath }

theorem reread_same : l.reread.Same l.uri where
  scheme := rfl
  userinfo := rfl
  host := rfl
  path := if_neg l.uri.getPath_ne_nil
  query := rfl
  fragment := rfl
  port := rfl

end Name

/-- The port of the text is read back. -/
theorem port_reread (hname : IsName l.authority.host) (hlen : l.text.length < 2 ^ 16)
    (hport : moreDigits 0 l.authority.port ≤ 0xffff) (hfar : l.printedPathPos < 2 ^ 16) :
    ∃ w, parseUrl l.uri.toString false = some w ∧ w.field = (l.reprint hname).field ∧
      ((w.text .UF_PORT (l.reprint hname).text = none ∧ l.uri.isDefaultPort = true) ∨
        ∃ digits, w.text .UF_PORT (l.reprint hname).text = some digits ∧
          stoi digits = .ok l.uri.port) := by
  have hf : UrlField.UF_PORT = .UF_SCHEMA ∨ UrlField.UF_PORT = .UF_USERINFO ∨
      UrlField.UF_PORT = .UF_HOST ∨ UrlField.UF_PORT = .UF_PORT := .inr (.inr (.inr rfl))
  have hread : ∀ w : Url, w.field = (l.reprint hname).field →
      w.text .UF_PORT (l.reprint hname).text =
        if l.printedPort = [] then none else some l.printedPort := fun w hw =>
    l.read_before hname hfar hf hw (l.sizes_before hname hlen hf)
  obtain ⟨n, hn, hdefault, hdigits⟩ := l.exists_port
  rw [l.parseUrl_printed hname hlen]
  by_cases hknown : l.uri.isDefaultPort = true
  · have hnone : (l.reprint hname).url.text .UF_PORT (l.reprint hname).text = none := by
      rw [hread _ rfl, if_pos (l.printedPort_eq_nil.mpr hknown)]
    refine ⟨(l.reprint hname).url, ?_, rfl, .inl ⟨hnone, hknown⟩⟩
    rw [Url.withPort, hnone]
  · have hsmall : n ≤ 0xffff := by
      by_cases hnil : l.authority.port = []
      · rw [(hdefault hnil).resolve_left hknown]
        decide
      · rw [hdigits hnil]
        exact hport
    have hprinted : l.printedPort = decimal n := by
      rw [printedPort, if_neg hknown, l.to_string_port hn]
    have hsome : ∀ w : Url, w.field = (l.reprint hname).field →
        w.text .UF_PORT (l.reprint hname).text = some (decimal n) := by
      intro w hw
      rw [hread w hw, hprinted, if_neg (decimal_ne_nil n)]
    refine ⟨{ (l.reprint hname).url with port := n }, ?_, rfl, .inr ⟨decimal n, hsome _ rfl, ?_⟩⟩
    · rw [(l.reprint hname).withPort_eq (hsome _ rfl), moreDigits_decimal,
        if_neg (Nat.not_lt.mpr hsmall)]
    · rw [stoi_digits (decimal_ne_nil n) isNum_of_mem_decimal
        (by rw [moreDigits_decimal]; exact hsmall), moreDigits_decimal, hn]

theorem roundTrips_of_fits (hlen : l.text.length < 2 ^ 16)
    (hport : moreDigits 0 l.authority.port ≤ 0xffff) (hfits : l.Fits) : l.uri.RoundTrips := by
  have hname : IsName l.authority.host := ⟨l.authority.host_ne_nil, hfits.name⟩
  obtain ⟨hsizes, -⟩ := l.text_sizes
  have hpathlen := l.length_getPath_le
  obtain ⟨w, hparse, hw, hreadport⟩ := l.port_reread hname hlen hport hfits.path
  have hbefore : ∀ f, f = .UF_SCHEMA ∨ f = .UF_USERINFO ∨ f = .UF_HOST ∨ f = .UF_PORT →
      (w.text f (l.reprint hname).text).getD [] = (l.reprint hname).component f := by
    intro f hf
    rw [l.read_before hname hfits.path hf hw (l.sizes_before hname hlen hf)]
    split
    · rename_i hnil
      rw [hnil]
      rfl
    · rfl
  have hpath := (l.reprint hname).getD_component hw (f := .UF_PATH)
    (by rw [l.place_path hname]; exact hfits.path) (by show l.uri.getPath.length < _; omega)
  have hquery := (l.query_read hname hlen hw).mpr hfits.query
  have hfragment := (l.fragment_read hname hlen hw).mpr hfits.fragment
  refine ⟨l.reread, ?_, l.reread_same⟩
  have hcreate : Uri.create l.uri.toString = Uri.ofUrl w (l.reprint hname).text := by
    unfold Uri.create
    rw [hparse, l.reprint_text hname]
  have hscheme := hbefore .UF_SCHEMA (.inl rfl)
  have huser := hbefore .UF_USERINFO (.inr (.inl rfl))
  have hhost := hbefore .UF_HOST (.inr (.inr (.inl rfl)))
  rw [hcreate]
  unfold Uri.ofUrl
  simp only [hscheme, huser, hhost, hpath, hquery, hfragment]
  rcases hreadport with ⟨hnone, hknown⟩ | ⟨digits, hsome, hstoi⟩
  · rw [hnone]
    have hdefault : Uri.portOf ((l.reprint hname).component .UF_SCHEMA) = l.uri.port :=
      l.uri.portOf_of_default hknown
    simp only [hdefault]
    rfl
  · rw [hsome]
    simp only [hstoi]
    rfl

theorem fits_of_roundTrips (hlen : l.text.length < 2 ^ 16) (h : l.uri.RoundTrips) : l.Fits := by
  obtain ⟨v, hcreate, hsame⟩ := h
  have hchars := l.name_of_created hlen hcreate hsame.userinfo hsame.host
  have hname : IsName l.authority.host := ⟨l.authority.host_ne_nil, hchars⟩
  obtain ⟨w, hparse, hof⟩ := Uri.create_some hcreate
  rw [l.parseUrl_printed hname hlen] at hparse
  have hw : w.field = (l.reprint hname).field := Url.withPort_field hparse
  rw [← l.reprint_text hname] at hof
  obtain ⟨-, -, -, hpath, hquery, hfragment⟩ := Uri.ofUrl_some hof
  refine ⟨hchars, ?_, ?_, ?_⟩
  · by_contra hfar
    exact l.path_lost hname hlen hw hpath (Nat.not_lt.mp hfar) hsame.path
  · exact (l.query_read hname hlen hw).mp (hquery.symm.trans hsame.query)
  · exact (l.fragment_read hname hlen hw).mp (hfragment.symm.trans hsame.fragment)

/-- Three bytes of room are enough for what `toString` adds. -/
theorem fits_of_short (hlen : l.text.length ≤ 65532)
    (hname : ∀ c ∈ l.authority.host, isHostChar c = true) : l.Fits where
  name := hname
  path := by
    have hle := l.printedPathPos_le
    omega
  query := by
    by_cases hnil : l.tail.query = []
    · exact .inl hnil
    · have hle := l.printedQueryPos_le hnil
      exact .inr (.inl (by omega))
  fragment := by
    by_cases hnil : l.tail.fragment = []
    · exact .inl hnil
    · have hle := l.printedFragmentPos_le hnil
      exact .inr (.inl (by omega))

end HttpParser.AbsoluteUrl

namespace Uri

/-- A `Uri` without a scheme is not read back: its text begins with a colon. -/
theorem not_roundTrips_of_no_scheme {u : Uri} (h : u.scheme = []) : ¬u.RoundTrips := by
  rintro ⟨v, hcreate, -⟩
  obtain ⟨w, hparse, -⟩ := create_some hcreate
  obtain ⟨r, p, hloop, -⟩ := parseUrl_some hparse
  have htext : ∃ rest, u.toString = (':' : UInt8) :: rest := by
    unfold toString
    rw [h]
    exact ⟨_, rfl⟩
  obtain ⟨rest, htext⟩ := htext
  have hdead : parseUrlChar .s_req_spaces_before_url ':' = .s_dead := by decide
  rw [htext, urlLoop, hdead] at hloop
  simp at hloop

/-- A string that begins with `/` or `*` has no scheme. -/
theorem scheme_of_origin {c : UInt8} {rest : List UInt8} (hc : c = '/' ∨ c = '*') {u : Uri}
    (h : create (c :: rest) = .ok (some u)) : u.scheme = [] := by
  obtain ⟨w, hparse, hof⟩ := create_some h
  obtain ⟨hscheme, -⟩ := ofUrl_some hof
  have hnone : w.text .UF_SCHEMA (c :: rest) = none := by
    rw [Url.text, origin_no_schema hc hparse]
    rfl
  rw [hscheme, hnone]
  rfl

/-- Of the accepted strings below 65536 bytes, the `Uri` comes back exactly from the absolute URLs
that fit. -/
theorem round_trips_iff {s : List UInt8} {u : Uri} (hlen : s.length < 65536)
    (h : create s = .ok (some u)) : u.RoundTrips ↔ ∃ l : AbsoluteUrl, l.text = s ∧ l.Fits := by
  have habsolute : ∀ l : AbsoluteUrl, l.text = s →
      u = l.uri ∧ moreDigits 0 l.authority.port ≤ 0xffff := by
    rintro l rfl
    rw [l.create_text hlen] at h
    split at h
    · cases h
    · rename_i hport
      cases h
      exact ⟨rfl, Nat.not_lt.mp hport⟩
  constructor
  · intro hround
    obtain ⟨w, hparse, -⟩ := create_some h
    rcases exists_absoluteUrl hlen hparse with ⟨c, rest, rfl, hc⟩ | ⟨l, htext⟩
    · exact absurd hround (not_roundTrips_of_no_scheme (scheme_of_origin hc h))
    · obtain ⟨rfl, -⟩ := habsolute l htext
      rw [← htext] at hlen
      exact ⟨l, htext, l.fits_of_roundTrips hlen hround⟩
  · rintro ⟨l, htext, hfits⟩
    obtain ⟨rfl, hport⟩ := habsolute l htext
    rw [← htext] at hlen
    exact l.roundTrips_of_fits hlen hport hfits

theorem round_trips_all_parts :
    ∃ u, create (bytes "http://a:b@host.com:8080/p/a/t/h?query=string#hash") = .ok (some u) ∧
      u.RoundTrips := by
  let au : Authority :=
    { userinfo := bytes "a:b"
      hasAt := true
      bracketed := false
      host := bytes "host.com"
      port := bytes "8080"
      userinfo_chars := List.all_eq_true.mp (by decide)
      userinfo_at := by decide
      host_form := ⟨by decide, List.all_eq_true.mp (by decide)⟩
      port_chars := List.all_eq_true.mp (by decide) }
  let t : UrlTail :=
    { path := bytes "/p/a/t/h"
      mark := true
      query := bytes "query=string"
      hashes := 1
      fragment := bytes "hash"
      path_slash := fun c hc => (Option.some.inj hc).symm
      path_chars := List.all_eq_true.mp (by decide)
      query_chars := List.all_eq_true.mp (by decide)
      query_mark := by decide
      fragment_head := by decide
      fragment_chars := List.all_eq_true.mp (by decide)
      fragment_hash := by decide
      hashes_behind := by decide }
  let l : AbsoluteUrl := ⟨bytes "http", au, t, by decide, List.all_eq_true.mp (by decide)⟩
  have htext : l.text = bytes "http://a:b@host.com:8080/p/a/t/h?query=string#hash" := by decide
  have hlen : l.text.length = 50 := by rw [htext]; decide
  have hcreate := l.create_text (by omega)
  rw [if_neg (by decide), htext] at hcreate
  refine ⟨l.uri, hcreate, (round_trips_iff (by decide) hcreate).mpr ⟨l, htext, ?_⟩⟩
  exact l.fits_of_short (by omega) (List.all_eq_true.mp (by decide))

/-- The host of the text is `::1` without its brackets, which is no URL. -/
theorem brackets_lost :
    ∃ u, create (bytes "http://[::1]/") = .ok (some u) ∧ create u.toString = .ok none ∧
      ¬u.RoundTrips := by
  have hnull : create (bytes "http://::1/") = .ok none := by decide +kernel
  refine ⟨{ scheme := bytes "http", host := bytes "::1", path := bytes "/", port := 80 },
    by decide +kernel, hnull, ?_⟩
  rintro ⟨v, hv, -⟩
  have htext : create (bytes "http://::1/") = .ok (some v) := hv
  rw [hnull] at htext
  cases htext

end Uri

end Gxh
