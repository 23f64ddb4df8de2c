import Gxh.HttpParser.Url
import Gxh.Lib.Bytes
import Gxh.Lib.Scanner

/-!
# `http_parser_parse_url` on a URL put together

The grammar of the absolute URLs that `http_parser_parse_url` takes, and what it finds in each.

* `UrlTail`, `Authority`, `AbsoluteUrl` — the pieces, their delimiters and their characters;
* `UrlTail.urlLoop` and `Authority.hostLoop` — the loops over the text of the pieces;
* `AbsoluteUrl.parseUrl_text` — the components, as positions in the text.
-/

namespace Gxh.HttpParser

open Scanner

/-! ## Components -/

/-- The entry of a component: none for an empty text. -/
def span (pos : Nat) (x : List UInt8) : Option FieldData :=
  if x = [] then none else some ⟨pos % 2 ^ 16, x.length % 2 ^ 16⟩

/-- A component is entered, unless it is empty. -/
def Url.put (u : Url) (f : UrlField) (pos : Nat) (x : List UInt8) : Url :=
  if x = [] then u else u.set f ⟨pos % 2 ^ 16, x.length % 2 ^ 16⟩

@[simp] theorem Url.put_nil (u : Url) (f : UrlField) (pos : Nat) : u.put f pos [] = u := rfl

@[simp] theorem Url.put_port (u : Url) (f : UrlField) (pos : Nat) (x : List UInt8) :
    (u.put f pos x).port = u.port := by
  unfold put
  split
  · rfl
  · rfl

theorem Url.eq_of_field {u v : Url} (hfield : u.field = v.field) (hport : u.port = v.port) :
    u = v := by
  cases u
  cases v
  cases hfield
  cases hport
  rfl

theorem Url.set_self (u : Url) (f : UrlField) (d : FieldData) : (u.set f d).field f = some d :=
  Function.update_self _ _ _

theorem Url.set_other {u : Url} {f g : UrlField} (h : g ≠ f) (d : FieldData) :
    (u.set f d).field g = u.field g := Function.update_of_ne h _ _

theorem Url.put_other {u : Url} {f g : UrlField} (h : g ≠ f) (pos : Nat) (x : List UInt8) :
    (u.put f pos x).field g = u.field g := by
  unfold put
  split
  · rfl
  · exact Url.set_other h _

theorem Url.put_of_ne_nil {x : List UInt8} (h : x ≠ []) (u : Url) (f : UrlField) (pos : Nat) :
    (u.put f pos x).field f = span pos x := by
  rw [put, if_neg h, span, if_neg h, set_self]

theorem Url.put_self {u : Url} {f : UrlField} (h : u.field f = none) (pos : Nat) (x : List UInt8) :
    (u.put f pos x).field f = span pos x := by
  unfold put span
  split
  · exact h
  · exact set_self u f _

theorem Url.begin_eq (u : Url) (f : UrlField) (pos : Nat) (c : UInt8) :
    u.begin f pos 1 = u.put f pos [c] := rfl

/-- One more byte of a component. -/
theorem Url.grow_put {u : Url} {f : UrlField} {pos : Nat} {x : List UInt8} (h : x ≠ [])
    (c : UInt8) : (u.put f pos x).grow f = u.put f pos (x ++ [c]) := by
  have hnew : x ++ [c] ≠ [] := by simp
  rw [put, if_neg h, put, if_neg hnew, List.length_append, List.length_singleton]
  simp [grow, set, Nat.add_mod]

/-! ## Stretches of the loop -/

/-- A byte between the components. -/
theorem urlLoop_delimiter {s t : State} {c : UInt8} (hc : parseUrlChar s c = t) (ht : t ≠ .s_dead)
    (hf : t.urlField = none) (old : Option UrlField) (fa : Bool) (u : Url) (pos : Nat)
    (rest : List UInt8) :
    urlLoop s old fa u pos (c :: rest) = urlLoop t old fa u (pos + 1) rest := by
  simp only [urlLoop, hc, if_neg ht, hf]

section Stretch

variable {t : State} {f : UrlField} (hf : t.urlField = some f) (hat : t ≠ .s_req_server_with_at)
include hf hat

/-- Bytes that keep the state go to the component. -/
theorem urlLoop_stays {l : List UInt8} (hl : Stays parseUrlChar t l) {x : List UInt8} (hx : x ≠ [])
    (fa : Bool) (u : Url) (off pos : Nat) (rest : List UInt8) :
    urlLoop t (some f) fa (u.put f off x) pos (l ++ rest) =
      urlLoop t (some f) fa (u.put f off (x ++ l)) (pos + l.length) rest := by
  have hdead : t ≠ .s_dead := by
    intro h
    rw [h] at hf
    cases hf
  induction l generalizing x pos with
  | nil => simp
  | cons c l ih =>
      have hc : parseUrlChar t c = t := hl c List.mem_cons_self
      have hrest : Stays parseUrlChar t l := fun b hb => hl b (List.mem_cons_of_mem _ hb)
      simp only [List.cons_append, urlLoop, hc, if_neg hdead, hf, if_true, decide_eq_false hat,
        Bool.or_false]
      rw [Url.grow_put hx c, ih hrest (x := x ++ [c]) (by simp), List.append_assoc,
        List.length_cons, Nat.add_right_comm, Nat.add_assoc]
      rfl

/-- A byte that begins a component, and those that keep its state. -/
theorem urlLoop_component {s : State} {c : UInt8} (hc : parseUrlChar s c = t) {l : List UInt8}
    (hl : Stays parseUrlChar t l) {old : Option UrlField} (hold : old ≠ some f) (fa : Bool)
    (u : Url) (pos : Nat) (rest : List UInt8) :
    urlLoop s old fa u pos (c :: l ++ rest) =
      urlLoop t (some f) fa (u.put f pos (c :: l)) (pos + (l.length + 1)) rest := by
  have hdead : t ≠ .s_dead := by
    intro h
    rw [h] at hf
    cases hf
  simp only [List.cons_append, urlLoop, hc, if_neg hdead, hf, if_neg hold, decide_eq_false hat,
    Bool.or_false]
  rw [Url.begin_eq u f pos c, urlLoop_stays hf hat hl (by simp), Nat.add_right_comm, Nat.add_assoc]
  rfl

end Stretch

/-! ## Path, query and fragment -/

/-- A byte of a query. -/
def isQueryChar (c : UInt8) : Bool := isUrlChar c || c = '?'

/-- A byte of a fragment. -/
def isFragmentChar (c : UInt8) : Bool := isUrlChar c || c = '?' || c = '#'

/-- What follows the authority: a path, a query behind a `?` and a fragment behind any number of
`#`. Without a path and a `?` there is no fragment. -/
structure UrlTail where
  path : List UInt8
  mark : Bool
  query : List UInt8
  hashes : Nat
  fragment : List UInt8
  path_slash : ∀ c ∈ path.head?, c = ('/' : UInt8)
  path_chars : ∀ c ∈ path, isUrlChar c = true
  query_chars : ∀ c ∈ query, isQueryChar c = true
  query_mark : mark = false → query = []
  fragment_head : fragment.head? ≠ some ('#' : UInt8)
  fragment_chars : ∀ c ∈ fragment, isFragmentChar c = true
  fragment_hash : hashes = 0 → fragment = []
  hashes_behind : path = [] → mark = false → hashes = 0

/-! The states of `parse_url_char`, without the white space that none of them takes. -/

theorem parseUrlChar_eq {s : State} {f : UInt8 → State}
    (hspace : f ' ' = .s_dead ∧ f CR = .s_dead ∧ f LF = .s_dead ∧ f 9 = .s_dead ∧ f 12 = .s_dead)
    (hrest : ∀ c : UInt8, ¬(c = ' ' ∨ c = CR ∨ c = LF ∨ c = 9 ∨ c = 12) → parseUrlChar s c = f c)
    (c : UInt8) : parseUrlChar s c = f c := by
  by_cases hc : c = ' ' ∨ c = CR ∨ c = LF ∨ c = 9 ∨ c = 12
  · have hdead : parseUrlChar s c = .s_dead := if_pos hc
    obtain ⟨hblank, hcr, hlf, htab, hff⟩ := hspace
    rw [hdead]
    rcases hc with rfl | rfl | rfl | rfl | rfl
    · exact hblank.symm
    · exact hcr.symm
    · exact hlf.symm
    · exact htab.symm
    · exact hff.symm
  · exact hrest c hc

theorem parseUrlChar_path (c : UInt8) : parseUrlChar .s_req_path c =
    if isUrlChar c then .s_req_path
    else if c = '?' then .s_req_query_string_start
    else if c = '#' then .s_req_fragment_start
    else .s_dead :=
  parseUrlChar_eq (s := .s_req_path) ⟨rfl, rfl, rfl, rfl, rfl⟩ (fun _ h => if_neg h) c

theorem parseUrlChar_query_start : ∀ c : UInt8, parseUrlChar .s_req_query_string_start c =
    if isQueryChar c then .s_req_query_string
    else if c = '#' then .s_req_fragment_start
    else .s_dead := by
  refine parseUrlChar_eq ?_ ?_
  · exact ⟨rfl, rfl, rfl, rfl, rfl⟩
  · intro c h
    have hsource : parseUrlChar .s_req_query_string_start c =
        if isUrlChar c then .s_req_query_string
        else if c = '?' then .s_req_query_string
        else if c = '#' then .s_req_fragment_start
        else .s_dead := if_neg h
    rw [hsource, isQueryChar]
    by_cases hurl : isUrlChar c = true
    · simp [hurl]
    · by_cases hmark : c = '?'
      · simp [hmark]
      · simp [hurl, hmark]

theorem parseUrlChar_query (c : UInt8) :
    parseUrlChar .s_req_query_string c = parseUrlChar .s_req_query_string_start c := rfl

theorem parseUrlChar_fragment_start : ∀ c : UInt8, parseUrlChar .s_req_fragment_start c =
    if c = '#' then .s_req_fragment_start
    else if isFragmentChar c then .s_req_fragment
    else .s_dead := by
  refine parseUrlChar_eq ?_ ?_
  · exact ⟨rfl, rfl, rfl, rfl, rfl⟩
  · intro c h
    have hsource : parseUrlChar .s_req_fragment_start c =
        if isUrlChar c then .s_req_fragment
        else if c = '?' then .s_req_fragment
        else if c = '#' then .s_req_fragment_start
        else .s_dead := if_neg h
    rw [hsource, isFragmentChar]
    by_cases hhash : c = '#'
    · rw [hhash]
      rfl
    · by_cases hurl : isUrlChar c = true
      · simp [hurl, hhash]
      · by_cases hmark : c = '?'
        · rw [hmark]
          rfl
        · simp [hurl, hmark, hhash]

theorem parseUrlChar_fragment : ∀ c : UInt8, parseUrlChar .s_req_fragment c =
    if isFragmentChar c then .s_req_fragment else .s_dead := by
  refine parseUrlChar_eq ?_ ?_
  · exact ⟨rfl, rfl, rfl, rfl, rfl⟩
  · intro c h
    have hsource : parseUrlChar .s_req_fragment c =
        if isUrlChar c then .s_req_fragment
        else if c = '?' ∨ c = '#' then .s_req_fragment
        else .s_dead := if_neg h
    rw [hsource, isFragmentChar]
    by_cases hurl : isUrlChar c = true
    · simp [hurl]
    · simp [hurl]

/-- The states in which the authority is read. -/
def State.inServer (s : State) : Prop :=
  s = .s_req_server_start ∨ s = .s_req_server ∨ s = .s_req_server_with_at

theorem parseUrlChar_server (c : UInt8) :
    parseUrlChar .s_req_server_start c = parseUrlChar.serverChar c :=
  parseUrlChar_eq (s := .s_req_server_start) ⟨rfl, rfl, rfl, rfl, rfl⟩ (fun _ h => if_neg h) c

theorem parseUrlChar_with_at (c : UInt8) : parseUrlChar .s_req_server_with_at c =
    if c = '@' then .s_dead else parseUrlChar.serverChar c :=
  parseUrlChar_eq (s := .s_req_server_with_at) ⟨rfl, rfl, rfl, rfl, rfl⟩ (fun _ h => if_neg h) c

theorem State.inServer.slash {s : State} (h : s.inServer) : parseUrlChar s '/' = .s_req_path := by
  rcases h with rfl | rfl | rfl
  · decide
  · decide
  · decide

theorem State.inServer.mark {s : State} (h : s.inServer) :
    parseUrlChar s '?' = .s_req_query_string_start := by
  rcases h with rfl | rfl | rfl
  · decide
  · decide
  · decide

namespace UrlTail

def queryText (t : UrlTail) : List UInt8 := if t.mark then ('?' : UInt8) :: t.query else []

def fragmentText (t : UrlTail) : List UInt8 :=
  List.replicate t.hashes ('#' : UInt8) ++ t.fragment

def text (t : UrlTail) : List UInt8 := t.path ++ (t.queryText ++ t.fragmentText)

/-- The components of a tail at `pos`. -/
def put (t : UrlTail) (u : Url) (pos : Nat) : Url :=
  ((u.put .UF_PATH pos t.path).put .UF_QUERY (pos + t.path.length + 1) t.query).put .UF_FRAGMENT
    (pos + t.path.length + t.queryText.length + t.hashes) t.fragment

theorem length_fragmentText (t : UrlTail) :
    t.fragmentText.length = t.hashes + t.fragment.length := by
  rw [fragmentText, List.length_append, List.length_replicate]

theorem length_text (t : UrlTail) :
    t.text.length = t.path.length + (t.queryText.length + t.fragmentText.length) := by
  rw [text, List.length_append, List.length_append]

theorem urlLoop_hashes (n : Nat) (old : Option UrlField) (fa : Bool) (u : Url) (pos : Nat)
    (rest : List UInt8) :
    urlLoop .s_req_fragment_start old fa u pos (List.replicate n ('#' : UInt8) ++ rest) =
      urlLoop .s_req_fragment_start old fa u (pos + n) rest := by
  induction n generalizing pos with
  | zero => rfl
  | succ n ih =>
      have hc : parseUrlChar .s_req_fragment_start '#' = .s_req_fragment_start := by decide
      rw [List.replicate_succ, List.cons_append, urlLoop_delimiter hc (by decide) rfl, ih,
        Nat.add_right_comm, Nat.add_assoc]

variable (t : UrlTail) {s : State} {old : Option UrlField} (fa : Bool) (u : Url) (pos : Nat)

/-- The fragment, from a state that takes its `#`. -/
theorem urlLoop_fragmentText (hs : t.hashes ≠ 0 → parseUrlChar s '#' = .s_req_fragment_start)
    (hold : old ≠ some .UF_FRAGMENT) :
    urlLoop s old fa u pos t.fragmentText =
      some (fa, u.put .UF_FRAGMENT (pos + t.hashes) t.fragment) := by
  unfold fragmentText
  cases hn : t.hashes with
  | zero => rw [t.fragment_hash hn]; rfl
  | succ n =>
      have hfirst := hs (by omega)
      have hpos : pos + 1 + n = pos + (n + 1) := by omega
      rw [List.replicate_succ, List.cons_append, urlLoop_delimiter hfirst (by decide) rfl,
        urlLoop_hashes, hpos]
      cases hfrag : t.fragment with
      | nil => rfl
      | cons c l =>
          have hchars := t.fragment_chars
          have hhead := t.fragment_head
          rw [hfrag] at hchars hhead
          have hc : parseUrlChar .s_req_fragment_start c = .s_req_fragment := by
            have hne : c ≠ '#' := fun h => hhead (by rw [h]; rfl)
            rw [parseUrlChar_fragment_start, if_neg hne, if_pos (hchars c List.mem_cons_self)]
          have hl : Stays parseUrlChar .s_req_fragment l := by
            intro b hb
            rw [parseUrlChar_fragment, if_pos (hchars b (List.mem_cons_of_mem _ hb))]
          have hrun := urlLoop_component (f := .UF_FRAGMENT) rfl (by decide) hc hl hold fa u
            (pos + (n + 1)) []
          rw [List.append_nil] at hrun
          exact hrun

/-- The query and the fragment. -/
theorem urlLoop_queryText (hmark : parseUrlChar s '?' = .s_req_query_string_start)
    (hs : t.mark = false → t.hashes ≠ 0 → parseUrlChar s '#' = .s_req_fragment_start)
    (hold : old ≠ some .UF_QUERY ∧ old ≠ some .UF_FRAGMENT) :
    urlLoop s old fa u pos (t.queryText ++ t.fragmentText) =
      some (fa, (u.put .UF_QUERY (pos + 1) t.query).put .UF_FRAGMENT
        (pos + t.queryText.length + t.hashes) t.fragment) := by
  unfold queryText
  cases hm : t.mark with
  | false =>
      rw [t.query_mark hm]
      exact t.urlLoop_fragmentText fa u pos (hs hm) hold.2
  | true =>
      have hhash : parseUrlChar .s_req_query_string_start '#' = .s_req_fragment_start := by decide
      rw [if_pos rfl, List.cons_append, urlLoop_delimiter hmark (by decide) rfl]
      -- an empty query makes no entry, whatever follows it
      cases hquery : t.query with
      | nil =>
          rw [List.nil_append, t.urlLoop_fragmentText fa u (pos + 1) (fun _ => hhash) hold.2]
          rfl
      | cons c l =>
          have hchars := t.query_chars
          rw [hquery] at hchars
          have hc : parseUrlChar .s_req_query_string_start c = .s_req_query_string := by
            rw [parseUrlChar_query_start, if_pos (hchars c List.mem_cons_self)]
          have hhash' : parseUrlChar .s_req_query_string '#' = .s_req_fragment_start := by decide
          have hl : Stays parseUrlChar .s_req_query_string l := by
            intro b hb
            rw [parseUrlChar_query, parseUrlChar_query_start,
              if_pos (hchars b (List.mem_cons_of_mem _ hb))]
          have hpos : pos + 1 + (l.length + 1) = pos + (l.length + 1 + 1) := by omega
          have hnext : some UrlField.UF_QUERY ≠ some .UF_FRAGMENT := by decide
          rw [urlLoop_component (f := .UF_QUERY) rfl (by decide) hc hl hold.1,
            t.urlLoop_fragmentText fa _ _ (fun _ => hhash') hnext, hpos]
          rfl

/-- What follows the authority. -/
theorem urlLoop_text (hs : s.inServer)
    (hold : old ≠ some .UF_PATH ∧ old ≠ some .UF_QUERY ∧ old ≠ some .UF_FRAGMENT) :
    urlLoop s old fa u pos t.text = some (fa, t.put u pos) := by
  unfold text put
  cases hpath : t.path with
  | nil =>
      exact t.urlLoop_queryText fa u pos hs.mark
        (fun hm hn => absurd (t.hashes_behind hpath hm) hn) hold.2
  | cons c l =>
      have hchars := t.path_chars
      have hslash := t.path_slash c (by rw [hpath]; rfl)
      rw [hpath] at hchars
      have hc : parseUrlChar s c = .s_req_path := by rw [hslash, hs.slash]
      have hl : Stays parseUrlChar .s_req_path l := by
        intro b hb
        rw [parseUrlChar_path, if_pos (hchars b (List.mem_cons_of_mem _ hb))]
      have hnext : some UrlField.UF_PATH ≠ some .UF_QUERY ∧
          some UrlField.UF_PATH ≠ some .UF_FRAGMENT := by decide
      rw [urlLoop_component (f := .UF_PATH) rfl (by decide) hc hl hold.1,
        t.urlLoop_queryText fa _ _ (by decide) (fun _ _ => by decide) hnext]
      rfl

end UrlTail

/-! ## The authority in the loop over the URL -/

/-- A byte of the authority: what the states of the server make of it. -/
theorem State.inServer.step {s : State} (h : s.inServer) {c : UInt8}
    (hc : c ≠ '/' ∧ c ≠ '?') (halive : parseUrlChar s c ≠ .s_dead) :
    parseUrlChar s c = if c = '@' then .s_req_server_with_at else .s_req_server := by
  have hserver : parseUrlChar.serverChar c ≠ .s_dead → parseUrlChar.serverChar c =
      if c = '@' then .s_req_server_with_at else .s_req_server := by
    intro hne
    unfold parseUrlChar.serverChar at hne ⊢
    rw [if_neg hc.1, if_neg hc.2] at hne ⊢
    by_cases hat : c = '@'
    · rw [if_pos hat, if_pos hat]
    · rw [if_neg hat] at hne ⊢
      rw [if_neg hat]
      split at hne
      · rename_i hchar
        rw [if_pos hchar]
      · exact absurd rfl hne
  rcases h with rfl | rfl | rfl
  · rw [parseUrlChar_server] at halive ⊢
    exact hserver halive
  · have hsame : parseUrlChar .s_req_server c = parseUrlChar .s_req_server_start c := rfl
    rw [hsame, parseUrlChar_server] at halive ⊢
    exact hserver halive
  · rw [parseUrlChar_with_at] at halive ⊢
    by_cases hat : c = '@'
    · rw [if_pos hat] at halive
      exact absurd rfl halive
    · rw [if_neg hat] at halive ⊢
      exact hserver halive

theorem trap_dead : Trap parseUrlChar .s_dead := by
  intro c
  unfold parseUrlChar
  split
  · rfl
  · rfl

theorem inServer_ite (c : UInt8) :
    State.inServer (if c = '@' then .s_req_server_with_at else .s_req_server) := by
  split
  · exact .inr (.inr rfl)
  · exact .inr (.inl rfl)

/-- The bytes of an authority. -/
def ServerText (a : List UInt8) : Prop := ∀ c ∈ a, c ≠ ('/' : UInt8) ∧ c ≠ ('?' : UInt8)

theorem State.inServer.foldl {s : State} (h : s.inServer) {a : List UInt8} (ha : ServerText a)
    (halive : a.foldl parseUrlChar s ≠ .s_dead) : (a.foldl parseUrlChar s).inServer := by
  induction a generalizing s with
  | nil => exact h
  | cons c a ih =>
      have hfirst : parseUrlChar s c ≠ .s_dead := trap_dead.not_entered (x := [c]) halive
      have hstep := h.step (ha c List.mem_cons_self) hfirst
      rw [List.foldl_cons, hstep] at halive ⊢
      exact ih (inServer_ite c) (fun b hb => ha b (List.mem_cons_of_mem _ hb)) halive

/-- One byte of an authority, behind the bytes `x`. -/
theorem urlLoop_serverChar {s : State} (h : s.inServer) {c : UInt8} (hc : c ≠ '/' ∧ c ≠ '?')
    (halive : parseUrlChar s c ≠ .s_dead) {x : List UInt8} (old : Option UrlField)
    (hold : if x = [] then old ≠ some .UF_HOST else old = some .UF_HOST) (fa : Bool) (u : Url)
    (off : Nat) (rest : List UInt8) :
    urlLoop s old fa (u.put .UF_HOST off x) (off + x.length) (c :: rest) =
      urlLoop (parseUrlChar s c) (some .UF_HOST) (fa || c = '@') (u.put .UF_HOST off (x ++ [c]))
        (off + (x ++ [c]).length) rest := by
  have hstep := h.step hc halive
  have hfield : (parseUrlChar s c).urlField = some .UF_HOST := by
    rw [hstep]
    split
    · rfl
    · rfl
  have hat : decide (parseUrlChar s c = .s_req_server_with_at) = decide (c = '@') := by
    rw [hstep]
    split
    · rename_i heq
      rw [decide_eq_true heq]
      rfl
    · rename_i hne
      rw [decide_eq_false hne]
      rfl
  simp only [urlLoop, if_neg halive, hfield, hat, List.length_append, List.length_singleton,
    Nat.add_assoc]
  by_cases hx : x = []
  · rw [if_pos hx] at hold
    rw [if_neg hold, hx, Url.put_nil, List.nil_append]
    rfl
  · rw [if_neg hx] at hold
    rw [if_pos hold, Url.grow_put hx c]

/-- An authority, behind the bytes `x`. -/
theorem urlLoop_server {s : State} (h : s.inServer) {a : List UInt8} (ha : ServerText a)
    (halive : a.foldl parseUrlChar s ≠ .s_dead) {x : List UInt8} (old : Option UrlField)
    (hold : if x = [] then old ≠ some .UF_HOST else old = some .UF_HOST) (fa : Bool) (u : Url)
    (off : Nat) (rest : List UInt8) :
    urlLoop s old fa (u.put .UF_HOST off x) (off + x.length) (a ++ rest) =
      urlLoop (a.foldl parseUrlChar s) (if a = [] then old else some .UF_HOST)
        (fa || decide (('@' : UInt8) ∈ a)) (u.put .UF_HOST off (x ++ a))
        (off + (x ++ a).length) rest := by
  induction a generalizing s x old fa with
  | nil => simp
  | cons c a ih =>
      have hfirst : parseUrlChar s c ≠ .s_dead := trap_dead.not_entered (x := [c]) halive
      have hmem := ha c List.mem_cons_self
      have hserver : (parseUrlChar s c).inServer := by
        rw [h.step hmem hfirst]
        exact inServer_ite c
      have hnext := ih hserver (fun b hb => ha b (List.mem_cons_of_mem _ hb)) halive
        (x := x ++ [c]) (some .UF_HOST) (by simp) (fa || c = '@')
      rw [List.cons_append, urlLoop_serverChar h hmem hfirst old hold, hnext, List.append_assoc]
      simp [Bool.or_assoc, eq_comm (a := c)]

/-! ## The loop over an absolute URL -/

/-- The text of an absolute URL. -/
def absoluteText (scheme authority : List UInt8) (t : UrlTail) : List UInt8 :=
  scheme ++ (bytes "://" ++ (authority ++ t.text))

theorem parseUrlChar_schema (c : UInt8) : parseUrlChar .s_req_schema c =
    if isAlpha c then .s_req_schema else if c = ':' then .s_req_schema_slash else .s_dead :=
  parseUrlChar_eq (s := .s_req_schema) ⟨rfl, rfl, rfl, rfl, rfl⟩ (fun _ h => if_neg h) c

theorem parseUrlChar_schema_slash (c : UInt8) : parseUrlChar .s_req_schema_slash c =
    if c = '/' then .s_req_schema_slash_slash else .s_dead :=
  parseUrlChar_eq (s := .s_req_schema_slash) ⟨rfl, rfl, rfl, rfl, rfl⟩ (fun _ h => if_neg h) c

theorem parseUrlChar_schema_slash_slash (c : UInt8) : parseUrlChar .s_req_schema_slash_slash c =
    if c = '/' then .s_req_server_start else .s_dead :=
  parseUrlChar_eq (s := .s_req_schema_slash_slash) ⟨rfl, rfl, rfl, rfl, rfl⟩
    (fun _ h => if_neg h) c

theorem parseUrlChar_spaces (c : UInt8) : parseUrlChar .s_req_spaces_before_url c =
    if c = '/' ∨ c = '*' then .s_req_path
    else if isAlpha c then .s_req_schema
    else .s_dead :=
  parseUrlChar_eq (s := .s_req_spaces_before_url) ⟨rfl, rfl, rfl, rfl, rfl⟩
    (fun _ h => if_neg h) c

theorem isAlpha_ne {c : UInt8} (h : isAlpha c = true) : ¬(c = '/' ∨ c = '*') := by
  rintro (rfl | rfl)
  · exact absurd h (by decide)
  · exact absurd h (by decide)

section Absolute

variable {scheme : List UInt8} (hne : scheme ≠ []) (halpha : ∀ c ∈ scheme, isAlpha c = true)
include hne halpha

/-- The scheme and what is behind it. -/
theorem urlLoop_scheme (fa : Bool) (u : Url) (rest : List UInt8) :
    urlLoop .s_req_spaces_before_url none fa u 0 (scheme ++ rest) =
      urlLoop .s_req_schema (some .UF_SCHEMA) fa (u.put .UF_SCHEMA 0 scheme)
        scheme.length rest := by
  cases scheme with
  | nil => exact absurd rfl hne
  | cons c l =>
      have hfirst := halpha c List.mem_cons_self
      have hc : parseUrlChar .s_req_spaces_before_url c = .s_req_schema := by
        rw [parseUrlChar_spaces, if_neg (isAlpha_ne hfirst), if_pos hfirst]
      have hl : Stays parseUrlChar .s_req_schema l := by
        intro b hb
        rw [parseUrlChar_schema, if_pos (halpha b (List.mem_cons_of_mem _ hb))]
      have hold : none ≠ some UrlField.UF_SCHEMA := by decide
      rw [urlLoop_component (f := .UF_SCHEMA) rfl (by decide) hc hl hold, Nat.zero_add]
      rfl

theorem urlLoop_slashes (fa : Bool) (u : Url) (rest : List UInt8) :
    urlLoop .s_req_spaces_before_url none fa u 0 (scheme ++ (bytes "://" ++ rest)) =
      urlLoop .s_req_server_start (some .UF_SCHEMA) fa (u.put .UF_SCHEMA 0 scheme)
        (scheme.length + 3) rest := by
  have hcolon : parseUrlChar .s_req_schema ':' = .s_req_schema_slash := by decide
  have hslash : parseUrlChar .s_req_schema_slash '/' = .s_req_schema_slash_slash := by decide
  have hslash' : parseUrlChar .s_req_schema_slash_slash '/' = .s_req_server_start := by decide
  have htext : bytes "://" ++ rest =
      (':' : UInt8) :: ('/' : UInt8) :: ('/' : UInt8) :: rest := rfl
  rw [urlLoop_scheme hne halpha, htext, urlLoop_delimiter hcolon (by decide) rfl,
    urlLoop_delimiter hslash (by decide) rfl, urlLoop_delimiter hslash' (by decide) rfl]

theorem urlLoop_absoluteText {a : List UInt8} (ha : ServerText a)
    (halive : a.foldl parseUrlChar .s_req_server_start ≠ .s_dead) (t : UrlTail) :
    urlLoop .s_req_spaces_before_url none false {} 0 (absoluteText scheme a t) =
      some (decide (('@' : UInt8) ∈ a),
        t.put ((Url.put {} .UF_SCHEMA 0 scheme).put .UF_HOST (scheme.length + 3) a)
          (scheme.length + 3 + a.length)) := by
  have hserver : State.inServer .s_req_server_start := .inl rfl
  have hrun := urlLoop_server hserver ha halive (x := []) (some .UF_SCHEMA) (by simp) false
    (Url.put {} .UF_SCHEMA 0 scheme) (scheme.length + 3) t.text
  have hold : ∀ f, f ≠ .UF_SCHEMA → f ≠ .UF_HOST →
      (if a = [] then some UrlField.UF_SCHEMA else some .UF_HOST) ≠ some f := by
    intro f hschema hhost
    split
    · exact fun h => hschema (Option.some.inj h).symm
    · exact fun h => hhost (Option.some.inj h).symm
  rw [List.nil_append, Url.put_nil, List.length_nil, Nat.add_zero, Bool.false_or] at hrun
  rw [absoluteText, urlLoop_slashes hne halpha, hrun]
  exact t.urlLoop_text _ _ _ (hserver.foldl ha halive)
    ⟨hold _ (by decide) (by decide), hold _ (by decide) (by decide), hold _ (by decide) (by decide)⟩

end Absolute

end Gxh.HttpParser
