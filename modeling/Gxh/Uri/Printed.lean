import Gxh.HttpParser.UrlForms
import Gxh.Uri.Create

/-!
# The text of a `Uri`

The `Uri` that `Create` makes of an absolute URL, and what `toString` writes for it.

* `AbsoluteUrl.create_text` — the `Uri` of an absolute URL below 65536 bytes;
* `AbsoluteUrl.toString_uri`, `reprint_text` — its text, put together by the same grammar: the
  brackets of a literal are gone, and a `:0` and a `/` may be new;
* `printedPathPos_le` and the like — how far that moves what follows.
-/

namespace Gxh

open HttpParser

/-! ## The `Uri` of an absolute URL -/

namespace HttpParser.AbsoluteUrl

variable (l : AbsoluteUrl)

/-- The components as `Create` keeps them. -/
def uri : Uri where
  scheme := l.scheme
  userinfo := l.authority.userinfo
  host := l.authority.host
  path := l.tail.path
  query := l.tail.query
  fragment := l.tail.fragment
  port :=
    if l.authority.port = [] then Uri.portOf l.scheme else moreDigits 0 l.authority.port

theorem length_authority : l.authority.text.length =
    l.authority.userText.length + (l.authority.hostText.length + l.authority.portText.length) := by
  rw [Authority.text, List.length_append, List.length_append]

theorem length_text : l.text.length =
    l.scheme.length + (3 + (l.authority.text.length + l.tail.text.length)) := by
  rw [text, absoluteText, List.length_append, List.length_append, List.length_append]
  rfl

theorem place_add_length_le (f : UrlField) :
    l.place f + (l.component f).length ≤ l.text.length ∨ l.component f = [] := by
  by_cases hnil : l.component f = []
  · exact .inr hnil
  · left
    have hpos : 0 < (l.component f).length := List.length_pos_of_ne_nil hnil
    have hlast := l.holds_component f ((l.component f).length - 1) (by omega)
    have hinside : (l.component f)[(l.component f).length - 1]? ≠ none := by
      rw [ne_eq, List.getElem?_eq_none_iff]
      omega
    rw [← hlast, ne_eq, List.getElem?_eq_none_iff] at hinside
    omega

/-- A text that is short enough gives its components back. -/
theorem text_of_short {v : Url} (hv : v.field = l.field) (hlen : l.text.length < 2 ^ 16)
    (f : UrlField) :
    v.text f l.text = if l.component f = [] then none else some (l.component f) := by
  rcases l.place_add_length_le f with hle | hnil
  · by_cases hnil : l.component f = []
    · rw [Url.text, hv, field, span, if_pos hnil, if_pos hnil]
      rfl
    · have hpos : 0 < (l.component f).length := List.length_pos_of_ne_nil hnil
      exact l.text_component hv (by omega) (by omega)
  · rw [Url.text, hv, field, span, if_pos hnil, if_pos hnil]
    rfl

theorem getD_of_short {v : Url} (hv : v.field = l.field) (hlen : l.text.length < 2 ^ 16)
    (f : UrlField) : (v.text f l.text).getD [] = l.component f := by
  rw [l.text_of_short hv hlen]
  split
  · rename_i hnil
    rw [hnil]
    rfl
  · rfl

theorem ofUrl_text {v : Url} (hv : v.field = l.field) (hlen : l.text.length < 2 ^ 16)
    (hport : moreDigits 0 l.authority.port ≤ 0xffff) :
    Uri.ofUrl v l.text = .ok (some l.uri) := by
  unfold Uri.ofUrl
  simp only [l.getD_of_short hv hlen]
  rw [l.text_of_short hv hlen]
  by_cases hnil : l.component .UF_PORT = []
  · rw [if_pos hnil, uri]
    have hport' : l.authority.port = [] := hnil
    rw [if_pos hport']
    rfl
  · rw [if_neg hnil, uri]
    have hport' : l.authority.port ≠ [] := hnil
    have hstoi : stoi (l.component .UF_PORT) = _ :=
      stoi_digits hport' l.authority.port_chars hport
    simp only [hstoi, if_neg hport']
    rfl

theorem withPort_eq {v : Url} {digits : List UInt8}
    (hdigits : v.text .UF_PORT l.text = some digits) :
    v.withPort l.text = if 0xffff < moreDigits 0 digits then none
      else some { v with port := moreDigits 0 digits } := by
  unfold Url.withPort
  rw [hdigits]
  simp only
  rw [portLoop_eq (by omega)]
  split
  · rfl
  · rfl

theorem create_text (hlen : l.text.length < 2 ^ 16) :
    Uri.create l.text =
      if 0xffff < moreDigits 0 l.authority.port then .ok none else .ok (some l.uri) := by
  have hsize := l.length_text
  have hparse := l.parseUrl_text (by omega) (by omega)
  have htext := l.text_of_short (v := l.url) rfl hlen .UF_PORT
  unfold Uri.create
  by_cases hnil : l.authority.port = []
  · have hnone : l.url.text .UF_PORT l.text = none := by
      rw [htext]
      exact if_pos hnil
    have hsmall : ¬0xffff < moreDigits 0 l.authority.port := by
      rw [hnil]
      decide
    rw [hparse, Url.withPort, hnone, if_neg hsmall]
    exact l.ofUrl_text rfl hlen (Nat.not_lt.mp hsmall)
  · have hsome : l.url.text .UF_PORT l.text = some l.authority.port := by
      rw [htext]
      exact if_neg hnil
    rw [hparse, l.withPort_eq hsome]
    by_cases hbig : 0xffff < moreDigits 0 l.authority.port
    · rw [if_pos hbig, if_pos hbig]
    · rw [if_neg hbig, if_neg hbig]
      exact l.ofUrl_text rfl hlen (Nat.not_lt.mp hbig)

/-! ## The text of the `Uri` -/

/-- The number of the port, where the text has one. -/
def printedPort : List UInt8 := if l.uri.isDefaultPort then [] else to_string l.uri.port

/-- The user information of the text. -/
def printedUser : List UInt8 :=
  l.authority.userinfo ++ if l.authority.userinfo = [] then [] else bytes "@"

/-- The authority of the text: no brackets. -/
def printedAuthority : List UInt8 :=
  l.printedUser ++
    (l.authority.host ++ if l.uri.isDefaultPort then [] else bytes ":" ++ to_string l.uri.port)

/-- What follows the authority. -/
def printedTail : UrlTail where
  path := l.uri.getPath
  mark := decide (l.tail.query ≠ [])
  query := l.tail.query
  hashes := if l.tail.fragment = [] then 0 else 1
  fragment := l.tail.fragment
  path_slash := by
    unfold Uri.getPath
    split
    · exact fun c hc => (Option.some.inj hc).symm
    · exact l.tail.path_slash
  path_chars := by
    unfold Uri.getPath
    split
    · exact List.forall_mem_singleton.mpr (by decide)
    · exact l.tail.path_chars
  query_chars := l.tail.query_chars
  query_mark := fun h => of_not_not (of_decide_eq_false h)
  fragment_head := l.tail.fragment_head
  fragment_chars := l.tail.fragment_chars
  fragment_hash := by
    split
    · rename_i hnil
      exact fun _ => hnil
    · intro h
      cases h
  hashes_behind := by
    intro hpath
    exfalso
    unfold Uri.getPath at hpath
    split at hpath
    · cases hpath
    · rename_i hne
      exact hne hpath

theorem toString_uri :
    l.uri.toString = absoluteText l.scheme l.printedAuthority l.printedTail := by
  have hquery : l.printedTail.queryText =
      (if l.uri.query = [] then [] else bytes "?") ++ l.uri.query := by
    show (if decide (l.tail.query ≠ []) then ('?' : UInt8) :: l.tail.query else []) =
      (if l.tail.query = [] then [] else bytes "?") ++ l.tail.query
    by_cases hnil : l.tail.query = []
    · simp [hnil]
    · simp [hnil, bytes]
  have hfragment : l.printedTail.fragmentText =
      (if l.uri.fragment = [] then [] else bytes "#") ++ l.uri.fragment := by
    show List.replicate (if l.tail.fragment = [] then 0 else 1) ('#' : UInt8) ++ l.tail.fragment =
      (if l.tail.fragment = [] then [] else bytes "#") ++ l.tail.fragment
    by_cases hnil : l.tail.fragment = []
    · simp [hnil]
    · simp [hnil, bytes]
  have hpath : l.printedTail.path = l.uri.getPath := rfl
  unfold Uri.toString absoluteText printedAuthority printedUser UrlTail.text
  rw [hquery, hfragment, hpath]
  simp only [List.append_assoc]
  rfl

/-- The port of the `Uri` is the number behind the digits, or the default of the scheme. -/
theorem exists_port : ∃ n : Nat, l.uri.port = n ∧
    (l.authority.port = [] → l.uri.isDefaultPort = true ∨ n = 0) ∧
    (l.authority.port ≠ [] → n = moreDigits 0 l.authority.port) := by
  unfold uri Uri.isDefaultPort Uri.portOf
  by_cases hnil : l.authority.port = []
  · simp only [if_pos hnil]
    by_cases hhttp : l.scheme = bytes "http" ∨ l.scheme = bytes "ws"
    · exact ⟨80, by simp [hhttp], fun _ => .inl (by simp [hhttp]), fun h => absurd hnil h⟩
    · by_cases hhttps : l.scheme = bytes "https"
      · refine ⟨443, ?_, fun _ => .inl ?_, fun h => absurd hnil h⟩
        · rw [if_neg hhttp, if_pos hhttps]
          rfl
        · rw [if_neg hhttp, if_neg hhttp, if_pos hhttps, if_pos hhttps]
          rfl
      · refine ⟨0, ?_, fun _ => .inr rfl, fun h => absurd hnil h⟩
        rw [if_neg hhttp, if_neg hhttps]
        rfl
  · simp only [if_neg hnil]
    exact ⟨_, rfl, fun h => absurd h hnil, fun _ => rfl⟩

theorem to_string_port {n : Nat} (h : l.uri.port = n) : to_string l.uri.port = decimal n := by
  rw [h]
  rfl

theorem printedPort_chars : ∀ c ∈ l.printedPort, isNum c = true := by
  obtain ⟨n, hn, -⟩ := l.exists_port
  unfold printedPort
  rw [l.to_string_port hn]
  split
  · simp
  · exact isNum_of_mem_decimal

/-- The text of the port is at most two bytes longer than it was. -/
theorem length_port_le :
    (if l.uri.isDefaultPort then [] else bytes ":" ++ to_string l.uri.port : List UInt8).length ≤
      l.authority.portText.length + 2 := by
  obtain ⟨n, hn, hdefault, hdigits⟩ := l.exists_port
  rw [l.to_string_port hn]
  split
  · simp
  · rename_i hno
    rw [List.length_append]
    unfold Authority.portText
    by_cases hnil : l.authority.port = []
    · have hzero : n = 0 := (hdefault hnil).resolve_left hno
      rw [if_pos hnil, hzero]
      decide
    · have hle := length_decimal_moreDigits hnil l.authority.port_chars
      rw [hdigits hnil, if_neg hnil, List.length_cons]
      have hcolon : (bytes ":").length = 1 := rfl
      omega

/-- The text, for a host that needs no brackets, as a URL of the grammar. -/
def reprint (hname : IsName l.authority.host) : AbsoluteUrl where
  scheme := l.scheme
  authority :=
    { userinfo := l.authority.userinfo
      hasAt := decide (l.authority.userinfo ≠ [])
      bracketed := false
      host := l.authority.host
      port := l.printedPort
      userinfo_chars := l.authority.userinfo_chars
      userinfo_at := fun h => of_not_not (of_decide_eq_false h)
      host_form := hname
      port_chars := l.printedPort_chars }
  tail := l.printedTail
  scheme_ne := l.scheme_ne
  scheme_chars := l.scheme_chars

theorem printedPort_eq_nil : l.printedPort = [] ↔ l.uri.isDefaultPort = true := by
  obtain ⟨n, hn, -⟩ := l.exists_port
  unfold printedPort
  rw [l.to_string_port hn]
  split
  · rename_i hdefault
    simp [hdefault]
  · rename_i hno
    simp [hno, decimal_ne_nil]

theorem reprint_authority (hname : IsName l.authority.host) :
    (l.reprint hname).authority.text = l.printedAuthority := by
  have huser : (l.reprint hname).authority.userText = l.printedUser := by
    show l.authority.userinfo ++
      (if decide (l.authority.userinfo ≠ []) then [('@' : UInt8)] else []) = _
    unfold printedUser
    by_cases hnil : l.authority.userinfo = []
    · simp [hnil]
    · simp [hnil, bytes]
  have hport : (l.reprint hname).authority.portText =
      if l.uri.isDefaultPort then [] else bytes ":" ++ to_string l.uri.port := by
    show (if l.printedPort = [] then [] else (':' : UInt8) :: l.printedPort) = _
    by_cases hdefault : l.uri.isDefaultPort = true
    · rw [if_pos (l.printedPort_eq_nil.mpr hdefault), if_pos hdefault]
    · rw [if_neg (mt l.printedPort_eq_nil.mp hdefault), if_neg hdefault, printedPort,
        if_neg hdefault]
      rfl
  have hhost : (l.reprint hname).authority.hostText = l.authority.host := rfl
  rw [Authority.text, huser, hport, hhost, printedAuthority]

theorem reprint_text (hname : IsName l.authority.host) :
    (l.reprint hname).text = l.uri.toString := by
  rw [text, l.reprint_authority hname, l.toString_uri]
  rfl

/-! ## Sizes -/

/-- Where the path is in the text. -/
def printedPathPos : Nat := l.scheme.length + 3 + l.printedAuthority.length

def printedQueryPos : Nat := l.printedPathPos + l.uri.getPath.length + 1

def printedFragmentPos : Nat :=
  l.printedPathPos + l.uri.getPath.length +
    (if l.tail.query = [] then 0 else l.tail.query.length + 1) + 1

theorem length_printedUser_le : l.printedUser.length ≤ l.authority.userText.length := by
  unfold printedUser Authority.userText
  rw [List.length_append, List.length_append]
  by_cases hnil : l.authority.userinfo = []
  · rw [if_pos hnil]
    exact Nat.add_le_add_left (Nat.zero_le _) _
  · have hat : l.authority.hasAt = true := by
      by_contra hno
      exact hnil (l.authority.userinfo_at (Bool.eq_false_iff.mpr hno))
    rw [if_neg hnil, if_pos hat]
    exact Nat.le_refl _

theorem length_host_le : l.authority.host.length ≤ l.authority.hostText.length := by
  unfold Authority.hostText
  split
  · rw [List.length_cons, List.length_append]
    omega
  · exact Nat.le_refl _

theorem length_printedAuthority_le :
    l.printedAuthority.length ≤ l.authority.text.length + 2 := by
  have hport := l.length_port_le
  have hhost := l.length_host_le
  have huser := l.length_printedUser_le
  have hsum := l.length_authority
  rw [printedAuthority, List.length_append, List.length_append]
  omega

theorem length_getPath_le : l.uri.getPath.length ≤ l.tail.path.length + 1 := by
  unfold Uri.getPath
  split
  · exact Nat.le_add_left _ _
  · exact Nat.le_succ _

theorem text_sizes : l.text.length = l.scheme.length + 3 + l.authority.text.length +
    l.tail.path.length + l.tail.queryText.length + l.tail.fragmentText.length ∧
      0 < l.scheme.length := by
  have hsum := l.length_text
  have htail := l.tail.length_text
  exact ⟨by omega, List.length_pos_of_ne_nil l.scheme_ne⟩

theorem printedPathPos_le : l.printedPathPos ≤ l.text.length + 2 := by
  have hauthority := l.length_printedAuthority_le
  obtain ⟨hsizes, -⟩ := l.text_sizes
  unfold printedPathPos
  omega

theorem length_queryText (hne : l.tail.query ≠ []) :
    l.tail.queryText.length = l.tail.query.length + 1 := by
  unfold UrlTail.queryText
  split
  · rfl
  · rename_i hmark
    exact absurd (l.tail.query_mark (Bool.eq_false_iff.mpr hmark)) hne

theorem length_query_le : l.tail.query.length ≤ l.text.length := by
  obtain ⟨hsizes, -⟩ := l.text_sizes
  by_cases hnil : l.tail.query = []
  · rw [hnil]
    exact Nat.zero_le _
  · have hquery := l.length_queryText hnil
    omega

theorem length_fragment_le : l.tail.fragment.length ≤ l.text.length := by
  obtain ⟨hsizes, -⟩ := l.text_sizes
  have hfragment := l.tail.length_fragmentText
  omega

theorem printedQueryPos_le (hne : l.tail.query ≠ []) :
    l.printedQueryPos + l.tail.query.length ≤ l.text.length + 3 := by
  have hauthority := l.length_printedAuthority_le
  have hpath := l.length_getPath_le
  obtain ⟨hsizes, -⟩ := l.text_sizes
  have hquery := l.length_queryText hne
  unfold printedQueryPos printedPathPos
  omega

theorem printedFragmentPos_le (hne : l.tail.fragment ≠ []) :
    l.printedFragmentPos + l.tail.fragment.length ≤ l.text.length + 3 := by
  have hauthority := l.length_printedAuthority_le
  have hpath := l.length_getPath_le
  obtain ⟨hsizes, -⟩ := l.text_sizes
  have hquery : (if l.tail.query = [] then 0 else l.tail.query.length + 1) ≤
      l.tail.queryText.length := by
    by_cases hnil : l.tail.query = []
    · rw [if_pos hnil]
      exact Nat.zero_le _
    · rw [if_neg hnil, l.length_queryText hnil]
  have hhash : 0 < l.tail.hashes :=
    Nat.pos_of_ne_zero fun hzero => hne (l.tail.fragment_hash hzero)
  have hfragment := l.tail.length_fragmentText
  unfold printedFragmentPos printedPathPos
  omega

end HttpParser.AbsoluteUrl

end Gxh
