import Gxh.HttpParser.UrlLayout

/-!
# `http_parse_host`

The grammar of an authority, and what `http_parse_host` finds in one.

* `Authority` — user information before a `@`, a name or a literal in brackets, a port;
* `Authority.hostLoop_text` — the loop over the text of an authority;
* `exists_authority` — what the loop takes is such a text.
-/

namespace Gxh.HttpParser

open Scanner

/-! ## Names and literals -/

def isV6Char (c : UInt8) : Bool := isHex c || c = ':' || c = '.'

def isZoneChar (c : UInt8) : Bool :=
  isAlphanum c || c = '%' || c = '.' || c = '-' || c = '_' || c = '~'

def IsName (host : List UInt8) : Prop := host ≠ [] ∧ ∀ c ∈ host, isHostChar c = true

/-- An address, and perhaps a zone behind a percent sign. -/
def IsLiteral (host : List UInt8) : Prop :=
  ∃ address zone, host = address ++ zone ∧ address ≠ [] ∧ (∀ c ∈ address, isV6Char c = true) ∧
    (zone = [] ∨ ∃ id, zone = ('%' : UInt8) :: id ∧ id ≠ [] ∧ ∀ c ∈ id, isZoneChar c = true)

/-- User information, which a `@` follows, the host and a port, which follows a colon. -/
structure Authority where
  userinfo : List UInt8
  hasAt : Bool
  bracketed : Bool
  host : List UInt8
  port : List UInt8
  userinfo_chars : ∀ c ∈ userinfo, isUserinfoChar c = true
  userinfo_at : hasAt = false → userinfo = []
  host_form : if bracketed then IsLiteral host else IsName host
  port_chars : ∀ c ∈ port, isNum c = true

namespace Authority

def userText (a : Authority) : List UInt8 :=
  a.userinfo ++ if a.hasAt then [('@' : UInt8)] else []

def hostText (a : Authority) : List UInt8 :=
  if a.bracketed then ('[' : UInt8) :: (a.host ++ [(']' : UInt8)]) else a.host

def portText (a : Authority) : List UInt8 := if a.port = [] then [] else (':' : UInt8) :: a.port

def text (a : Authority) : List UInt8 := a.userText ++ (a.hostText ++ a.portText)

/-- Where the host begins. -/
def hostPos (a : Authority) (pos : Nat) : Nat :=
  pos + a.userText.length + if a.bracketed then 1 else 0

/-- Where the digits of the port are. -/
def portPos (a : Authority) (pos : Nat) : Nat := pos + a.userText.length + a.hostText.length + 1

/-- The components of an authority at `pos`. -/
def put (a : Authority) (u : Url) (pos : Nat) : Url :=
  ((u.put .UF_USERINFO pos a.userinfo).put .UF_HOST (a.hostPos pos) a.host).put .UF_PORT
    (a.portPos pos) a.port

end Authority

/-! ## Stretches of the loop -/

section Stretch

variable {t : HostState} {f : UrlField}
  (ht : t = .s_http_userinfo ∧ f = .UF_USERINFO ∨ t = .s_http_host_port ∧ f = .UF_PORT ∨
    (t = .s_http_host ∨ t = .s_http_host_v6) ∧ f = .UF_HOST)
include ht

/-- Bytes that keep the state go to the component. -/
theorem hostLoop_stays {l : List UInt8} (hl : Stays parseHostChar t l) {x : List UInt8}
    (hx : x ≠ []) (u : Url) (off pos : Nat) (rest : List UInt8) :
    hostLoop t (u.put f off x) pos (l ++ rest) =
      hostLoop t (u.put f off (x ++ l)) (pos + l.length) rest := by
  induction l generalizing x pos with
  | nil => simp
  | cons c l ih =>
      have hc : parseHostChar t c = t := hl c List.mem_cons_self
      have hrest : Stays parseHostChar t l := fun b hb => hl b (List.mem_cons_of_mem _ hb)
      have hstep : hostLoop t (u.put f off x) pos (c :: (l ++ rest)) =
          hostLoop t (u.put f off (x ++ [c])) (pos + 1) (l ++ rest) := by
        rw [← Url.grow_put hx c]
        rcases ht with ⟨rfl, rfl⟩ | ⟨rfl, rfl⟩ | ⟨rfl | rfl, rfl⟩
        · simp [hostLoop, hc]
        · simp [hostLoop, hc]
        · simp [hostLoop, hc]
        · simp [hostLoop, hc]
      rw [List.cons_append, hstep, ih hrest (by simp), List.append_assoc, List.length_cons,
        Nat.add_right_comm, Nat.add_assoc]
      rfl

/-- A byte that begins a component, and those that keep its state. -/
theorem hostLoop_component {s : HostState} (hs : s ≠ t) {c : UInt8} (hc : parseHostChar s c = t)
    {l : List UInt8} (hl : Stays parseHostChar t l) {u : Url}
    (hu : f = .UF_HOST → ∃ off, u.field .UF_HOST = some ⟨off, 0⟩) (pos : Nat) (rest : List UInt8) :
    hostLoop s u pos (c :: l ++ rest) =
      hostLoop t (u.put f pos (c :: l)) (pos + (l.length + 1)) rest := by
  have hstep : hostLoop s u pos (c :: (l ++ rest)) =
      hostLoop t (u.put f pos [c]) (pos + 1) (l ++ rest) := by
    rcases ht with ⟨rfl, rfl⟩ | ⟨rfl, rfl⟩ | ⟨hhost, rfl⟩
    · simp [hostLoop, hc, hs, Url.begin, Url.grow, Url.put, Url.set]
    · simp [hostLoop, hc, hs, Url.begin, Url.grow, Url.put, Url.set]
    · obtain ⟨off, hoff⟩ := hu rfl
      rcases hhost with rfl | rfl
      · simp [hostLoop, hc, hs, hoff, Url.grow, Url.put, Url.set]
      · simp [hostLoop, hc, hs, hoff, Url.grow, Url.put, Url.set]
  rw [List.cons_append, hstep, hostLoop_stays ht hl (by simp), Nat.add_right_comm, Nat.add_assoc]
  rfl

end Stretch

/-! ## The loop over an authority -/

/-- A byte that no component keeps. -/
theorem hostLoop_delimiter {s t : HostState} {c : UInt8} (hc : parseHostChar s c = t)
    (ht : t = .s_http_host_start ∨ t = .s_http_host_v6_start ∨ t = .s_http_host_v6_end ∨
      t = .s_http_host_port_start) (u : Url) (pos : Nat) (rest : List UInt8) :
    hostLoop s u pos (c :: rest) = hostLoop t u (pos + 1) rest := by
  rcases ht with rfl | rfl | rfl | rfl
  · simp [hostLoop, hc]
  · simp [hostLoop, hc]
  · simp [hostLoop, hc]
  · simp [hostLoop, hc]

/-- The bytes of a zone: part of the host. -/
theorem hostLoop_zone {l : List UInt8} (hl : Stays parseHostChar .s_http_host_v6_zone l)
    {x : List UInt8} (hx : x ≠ []) (u : Url) (off pos : Nat) (rest : List UInt8) :
    hostLoop .s_http_host_v6_zone (u.put .UF_HOST off x) pos (l ++ rest) =
      hostLoop .s_http_host_v6_zone (u.put .UF_HOST off (x ++ l)) (pos + l.length) rest := by
  induction l generalizing x pos with
  | nil => simp
  | cons c l ih =>
      have hc : parseHostChar .s_http_host_v6_zone c = .s_http_host_v6_zone :=
        hl c List.mem_cons_self
      have hrest : Stays parseHostChar .s_http_host_v6_zone l :=
        fun b hb => hl b (List.mem_cons_of_mem _ hb)
      have hstep : hostLoop .s_http_host_v6_zone (u.put .UF_HOST off x) pos (c :: (l ++ rest)) =
          hostLoop .s_http_host_v6_zone (u.put .UF_HOST off (x ++ [c])) (pos + 1) (l ++ rest) := by
        rw [← Url.grow_put hx c]
        simp [hostLoop, hc]
      rw [List.cons_append, hstep, ih hrest (by simp), List.append_assoc, List.length_cons,
        Nat.add_right_comm, Nat.add_assoc]
      rfl

theorem parseHostChar_userinfo (c : UInt8) : parseHostChar .s_http_userinfo c =
    if c = '@' then .s_http_host_start
    else if isUserinfoChar c then .s_http_userinfo
    else .s_http_host_dead :=
  rfl

theorem userinfo_ne_at {c : UInt8} (h : isUserinfoChar c = true) : c ≠ '@' := by
  rintro rfl
  exact absurd h (by decide)

theorem stays_userinfo {l : List UInt8} (h : ∀ c ∈ l, isUserinfoChar c = true) :
    Stays parseHostChar .s_http_userinfo l := by
  intro c hc
  have hchar := h c hc
  rw [parseHostChar_userinfo, if_neg (userinfo_ne_at hchar), if_pos hchar]

theorem stays_name {l : List UInt8} (h : ∀ c ∈ l, isHostChar c = true) :
    Stays parseHostChar .s_http_host l := by
  intro c hc
  show (if isHostChar c then _ else _) = _
  rw [if_pos (h c hc)]

theorem hostChar_ne_bracket {c : UInt8} (h : isHostChar c = true) : c ≠ '[' := by
  rintro rfl
  exact absurd h (by decide)

theorem parseHostChar_v6 (c : UInt8) : parseHostChar .s_http_host_v6 c =
    if isV6Char c then .s_http_host_v6
    else if c = ']' then .s_http_host_v6_end
    else if c = '%' then .s_http_host_v6_zone_start
    else .s_http_host_dead := by
  have hsource : parseHostChar .s_http_host_v6 c =
      if c = ']' then .s_http_host_v6_end
      else if isV6Char c then .s_http_host_v6
      else if c = '%' then .s_http_host_v6_zone_start
      else .s_http_host_dead := rfl
  rw [hsource]
  by_cases hclose : c = ']'
  · rw [hclose]
    rfl
  · rw [if_neg hclose, if_neg hclose]

theorem parseHostChar_v6_start (c : UInt8) : parseHostChar .s_http_host_v6_start c =
    if isV6Char c then .s_http_host_v6 else .s_http_host_dead := rfl

theorem parseHostChar_zone (c : UInt8) : parseHostChar .s_http_host_v6_zone c =
    if isZoneChar c then .s_http_host_v6_zone
    else if c = ']' then .s_http_host_v6_end
    else .s_http_host_dead := by
  have hsource : parseHostChar .s_http_host_v6_zone c =
      if c = ']' then .s_http_host_v6_end
      else if isZoneChar c then .s_http_host_v6_zone
      else .s_http_host_dead := rfl
  rw [hsource]
  by_cases hclose : c = ']'
  · rw [hclose]
    rfl
  · rw [if_neg hclose, if_neg hclose]

theorem parseHostChar_zone_start (c : UInt8) : parseHostChar .s_http_host_v6_zone_start c =
    if isZoneChar c then .s_http_host_v6_zone else .s_http_host_dead := rfl

theorem parseHostChar_port (c : UInt8) : parseHostChar .s_http_host_port c =
    if isNum c then .s_http_host_port else .s_http_host_dead := rfl

theorem parseHostChar_name (c : UInt8) : parseHostChar .s_http_host c =
    if isHostChar c then .s_http_host
    else if c = ':' then .s_http_host_port_start
    else .s_http_host_dead := rfl

theorem parseHostChar_v6_end (c : UInt8) : parseHostChar .s_http_host_v6_end c =
    if c = ':' then .s_http_host_port_start else .s_http_host_dead := rfl

/-- A literal, behind its bracket. -/
theorem hostLoop_literal {host : List UInt8} (h : IsLiteral host) {u : Url}
    (hu : ∃ off, u.field .UF_HOST = some ⟨off, 0⟩) (pos : Nat) (rest : List UInt8) :
    hostLoop .s_http_host_v6_start u pos (host ++ (']' : UInt8) :: rest) =
      hostLoop .s_http_host_v6_end (u.put .UF_HOST pos host) (pos + (host.length + 1)) rest := by
  obtain ⟨address, zone, rfl, hne, haddress, hzone⟩ := h
  cases address with
  | nil => exact absurd rfl hne
  | cons c l =>
      have hc : parseHostChar .s_http_host_v6_start c = .s_http_host_v6 := by
        rw [parseHostChar_v6_start, if_pos (haddress c List.mem_cons_self)]
      have hl : Stays parseHostChar .s_http_host_v6 l := by
        intro b hb
        rw [parseHostChar_v6, if_pos (haddress b (List.mem_cons_of_mem _ hb))]
      have hstart : HostState.s_http_host_v6_start ≠ .s_http_host_v6 := by decide
      rw [List.append_assoc, hostLoop_component (.inr (.inr ⟨.inr rfl, rfl⟩)) hstart hc hl
        fun _ => hu]
      rcases hzone with rfl | ⟨id, rfl, hid, hchars⟩
      · have hend : parseHostChar .s_http_host_v6 ']' = .s_http_host_v6_end := by decide
        rw [List.nil_append, hostLoop_delimiter hend (.inr (.inr (.inl rfl))), List.append_nil,
          Nat.add_assoc]
        rfl
      · cases id with
        | nil => exact absurd rfl hid
        | cons b z =>
            have hpercent : parseHostChar .s_http_host_v6 '%' = .s_http_host_v6_zone_start := by
              decide
            have hb : parseHostChar .s_http_host_v6_zone_start b = .s_http_host_v6_zone := by
              rw [parseHostChar_zone_start, if_pos (hchars b List.mem_cons_self)]
            have hz : Stays parseHostChar .s_http_host_v6_zone z := by
              intro d hd
              rw [parseHostChar_zone, if_pos (hchars d (List.mem_cons_of_mem _ hd))]
            have hend : parseHostChar .s_http_host_v6_zone ']' = .s_http_host_v6_end := by decide
            have htwo : ∀ p more, hostLoop .s_http_host_v6 (u.put .UF_HOST pos (c :: l)) p
                (('%' : UInt8) :: b :: more) = hostLoop .s_http_host_v6_zone
                  (u.put .UF_HOST pos (c :: l ++ [('%' : UInt8), b])) (p + 2) more := by
              intro p more
              have htext : c :: l ++ [('%' : UInt8), b] = (c :: l ++ [('%' : UInt8)]) ++ [b] := by
                simp
              rw [htext, ← Url.grow_put (by simp) b, ← Url.grow_put (by simp) ('%' : UInt8)]
              simp [hostLoop, hpercent, hb]
            rw [List.cons_append, List.cons_append, htwo, hostLoop_zone hz (by simp),
              hostLoop_delimiter hend (.inr (.inr (.inl rfl)))]
            simp [Nat.add_assoc, Nat.add_comm, Nat.add_left_comm]

namespace Authority

variable (a : Authority) {u : Url} (hu : ∃ off, u.field .UF_HOST = some ⟨off, 0⟩) (pos : Nat)

/-- The state that the host ends in. -/
def hostEnd : HostState := if a.bracketed then .s_http_host_v6_end else .s_http_host

theorem hostEnd_cases : a.hostEnd = .s_http_host ∨ a.hostEnd = .s_http_host_v6_end := by
  unfold hostEnd
  split
  · exact .inr rfl
  · exact .inl rfl

/-- Where the loop begins. -/
def start : HostState := if a.hasAt then .s_http_userinfo_start else .s_http_host_start

theorem hostLoop_userText (rest : List UInt8) :
    hostLoop a.start u pos (a.userText ++ rest) =
      hostLoop .s_http_host_start (u.put .UF_USERINFO pos a.userinfo) (pos + a.userText.length)
        rest := by
  unfold start userText
  cases hat : a.hasAt with
  | false =>
      rw [a.userinfo_at hat]
      rfl
  | true =>
      have hend : parseHostChar .s_http_userinfo '@' = .s_http_host_start := by decide
      simp only [if_true, List.append_assoc, List.length_append, List.length_singleton]
      cases huser : a.userinfo with
      | nil =>
          have hend' : parseHostChar .s_http_userinfo_start '@' = .s_http_host_start := by decide
          exact hostLoop_delimiter hend' (.inl rfl) u pos rest
      | cons c l =>
          have hchars := a.userinfo_chars
          rw [huser] at hchars
          have hstays := stays_userinfo hchars
          have hc : parseHostChar .s_http_userinfo_start c = .s_http_userinfo :=
            hstays c List.mem_cons_self
          have hl : Stays parseHostChar .s_http_userinfo l :=
            fun b hb => hstays b (List.mem_cons_of_mem _ hb)
          have hhost : UrlField.UF_USERINFO = .UF_HOST →
              ∃ off, u.field .UF_HOST = some ⟨off, 0⟩ := by
            intro h
            cases h
          rw [hostLoop_component (.inl ⟨rfl, rfl⟩) (by decide) hc hl hhost]
          exact hostLoop_delimiter hend (.inl rfl) _ _ rest

include hu in
theorem hostLoop_hostText (rest : List UInt8) :
    hostLoop .s_http_host_start u pos (a.hostText ++ rest) =
      hostLoop a.hostEnd
        (u.put .UF_HOST (pos + if a.bracketed then 1 else 0) a.host) (pos + a.hostText.length)
        rest := by
  have hform := a.host_form
  unfold hostText hostEnd
  cases hb : a.bracketed with
  | true =>
      have hopen : parseHostChar .s_http_host_start '[' = .s_http_host_v6_start := by decide
      rw [hb, if_pos rfl] at hform
      simp only [if_true, List.cons_append, List.append_assoc, List.nil_append]
      rw [hostLoop_delimiter hopen (.inr (.inl rfl)), hostLoop_literal hform hu]
      simp [Nat.add_comm, Nat.add_left_comm]
  | false =>
      rw [hb, if_neg Bool.false_ne_true] at hform
      obtain ⟨hne, hchars⟩ := hform
      cases hhost : a.host with
      | nil => exact absurd hhost hne
      | cons c l =>
          rw [hhost] at hchars
          have hfirst := hchars c List.mem_cons_self
          have hc : parseHostChar .s_http_host_start c = .s_http_host := by
            show (if c = '[' then _ else if isHostChar c then _ else _) = _
            rw [if_neg (hostChar_ne_bracket hfirst), if_pos hfirst]
          have hl : Stays parseHostChar .s_http_host l :=
            stays_name fun b hb => hchars b (List.mem_cons_of_mem _ hb)
          exact hostLoop_component (.inr (.inr ⟨.inl rfl, rfl⟩)) (by decide) hc hl (fun _ => hu)
            pos rest

theorem hostLoop_portText {s : HostState} (hs : s = .s_http_host ∨ s = .s_http_host_v6_end) :
    hostLoop s u pos a.portText =
      some (if a.port = [] then s else .s_http_host_port, u.put .UF_PORT (pos + 1) a.port) := by
  have hcolon : parseHostChar s ':' = .s_http_host_port_start := by
    rcases hs with rfl | rfl
    · decide
    · decide
  unfold portText
  cases hport : a.port with
  | nil => rfl
  | cons c l =>
      have hchars := a.port_chars
      rw [hport] at hchars
      have hstays : Stays parseHostChar .s_http_host_port (c :: l) := by
        intro b hb
        rw [parseHostChar_port, if_pos (hchars b hb)]
      have hc : parseHostChar .s_http_host_port_start c = .s_http_host_port :=
        hstays c List.mem_cons_self
      have hl : Stays parseHostChar .s_http_host_port l :=
        fun b hb => hstays b (List.mem_cons_of_mem _ hb)
      have hhost : UrlField.UF_PORT = .UF_HOST →
          ∃ off, u.field .UF_HOST = some ⟨off, 0⟩ := by
        intro h
        cases h
      have hrun := hostLoop_component (.inr (.inl ⟨rfl, rfl⟩)) (by decide) hc hl hhost (pos + 1) []
      rw [List.append_nil] at hrun
      rw [if_neg (by simp), if_neg (by simp), hostLoop_delimiter hcolon (.inr (.inr (.inr rfl))),
        hrun]
      rfl

include hu in
theorem hostLoop_text :
    hostLoop a.start u pos a.text =
      some (if a.port = [] then a.hostEnd else .s_http_host_port, a.put u pos) := by
  have hnew : ∃ off, (u.put .UF_USERINFO pos a.userinfo).field .UF_HOST = some ⟨off, 0⟩ := by
    obtain ⟨off, hoff⟩ := hu
    refine ⟨off, ?_⟩
    rw [Url.put_other (by decide), hoff]
  rw [text, a.hostLoop_userText, a.hostLoop_hostText hnew, a.hostLoop_portText _ a.hostEnd_cases]
  rfl

end Authority

/-! ## What the loop takes -/

/-- The states `http_parse_host` may end in. -/
def HostState.accepts (s : HostState) : Prop :=
  s = .s_http_host ∨ s = .s_http_host_v6_end ∨ s = .s_http_host_port

instance (s : HostState) : Decidable s.accepts := inferInstanceAs (Decidable (_ ∨ _))

theorem trap_host_dead : Trap parseHostChar .s_http_host_dead := fun _ => rfl

theorem not_accepts_dead (x : List UInt8) :
    ¬(x.foldl parseHostChar .s_http_host_dead).accepts := by
  rw [trap_host_dead.foldl]
  decide

theorem hostLoop_foldl {s t : HostState} {u u' : Url} {pos : Nat} {x : List UInt8}
    (h : hostLoop s u pos x = some (t, u')) : x.foldl parseHostChar s = t := by
  induction x generalizing s u pos with
  | nil =>
      cases h
      rfl
  | cons c x ih =>
      rw [hostLoop] at h
      split at h
      · cases h
      · exact ih h

theorem hostLoop_alive {s t : HostState} {u u' : Url} {pos : Nat} {x : List UInt8}
    (hs : s ≠ .s_http_host_dead) (h : hostLoop s u pos x = some (t, u')) :
    t ≠ .s_http_host_dead := by
  induction x generalizing s u pos with
  | nil =>
      cases h
      exact hs
  | cons c x ih =>
      rw [hostLoop] at h
      split at h
      · cases h
      · rename_i hc
        exact ih hc h

theorem port_taken {x : List UInt8} (h : (x.foldl parseHostChar .s_http_host_port).accepts) :
    ∀ c ∈ x, isNum c = true := by
  have hnum : ∀ c, isNum c = true ∧ parseHostChar .s_http_host_port c = .s_http_host_port ∨
      parseHostChar .s_http_host_port c = .s_http_host_dead := by
    intro c
    rw [parseHostChar_port]
    exact ite_cases _ _ _
  obtain ⟨digits, rest, rfl, hstays, hdigits, hrest⟩ := exists_stretch hnum x
  rw [List.foldl_append, hstays.foldl] at h
  rcases hrest with rfl | ⟨c, tail, rfl, hdead⟩
  · rwa [List.append_nil]
  · rw [List.foldl_cons, hdead] at h
    exact absurd h (not_accepts_dead tail)

/-- What a state behind the host does with a letter that is not of the host. -/
def LeavesHost (s : HostState) (c : UInt8) : Prop :=
  c = ':' ∧ parseHostChar s c = .s_http_host_port_start ∨ parseHostChar s c = .s_http_host_dead

/-- Behind the host: nothing, or a colon and digits. -/
theorem portText_taken {s : HostState} {x : List UInt8}
    (hx : x = [] ∨ ∃ c tail, x = c :: tail ∧ LeavesHost s c)
    (h : (x.foldl parseHostChar s).accepts) :
    ∃ port : List UInt8, x = (if port = [] then [] else (':' : UInt8) :: port) ∧
      ∀ c ∈ port, isNum c = true := by
  rcases hx with rfl | ⟨c, tail, rfl, ⟨rfl, hcolon⟩ | hdead⟩
  · exact ⟨[], rfl, by simp⟩
  · rw [List.foldl_cons, hcolon] at h
    cases tail with
    | nil => exact absurd h (by decide)
    | cons d digits =>
        -- the same as from the state behind the first digit
        have hdigits : ((d :: digits).foldl parseHostChar .s_http_host_port).accepts := h
        exact ⟨d :: digits, rfl, port_taken hdigits⟩
  · rw [List.foldl_cons, hdead] at h
    exact absurd h (not_accepts_dead tail)

/-- Behind a percent sign: a zone, and the closing bracket. -/
theorem zone_taken {x : List UInt8}
    (h : (x.foldl parseHostChar .s_http_host_v6_zone_start).accepts) :
    ∃ id rest, x = id ++ (']' : UInt8) :: rest ∧ id ≠ [] ∧ (∀ c ∈ id, isZoneChar c = true) ∧
      (rest.foldl parseHostChar .s_http_host_v6_end).accepts := by
  have hstart : ∀ c : UInt8,
      isZoneChar c = true ∧ parseHostChar .s_http_host_v6_zone_start c = .s_http_host_v6_zone ∨
      parseHostChar .s_http_host_v6_zone_start c = .s_http_host_dead := by
    intro c
    rw [parseHostChar_zone_start]
    exact ite_cases _ _ _
  have hzone : ∀ c : UInt8,
      isZoneChar c = true ∧ parseHostChar .s_http_host_v6_zone c = .s_http_host_v6_zone ∨
      c = ']' ∧ parseHostChar .s_http_host_v6_zone c = .s_http_host_v6_end ∨
      parseHostChar .s_http_host_v6_zone c = .s_http_host_dead := by
    intro c
    rw [parseHostChar_zone]
    exact ite_cases₂ _ _ _ _ _
  cases x with
  | nil => exact absurd h (by decide)
  | cons c x =>
      rw [List.foldl_cons] at h
      rcases hstart c with ⟨hfirst, hc⟩ | hdead
      · obtain ⟨id, rest, rfl, hstays, hid, hrest⟩ := exists_stretch hzone x
        rw [hc, List.foldl_append, hstays.foldl] at h
        rcases hrest with rfl | ⟨d, tail, rfl, ⟨rfl, hend⟩ | hdead⟩
        · exact absurd h (by decide)
        · rw [List.foldl_cons, hend] at h
          exact ⟨c :: id, tail, rfl, by simp, List.forall_mem_cons.mpr ⟨hfirst, hid⟩, h⟩
        · rw [List.foldl_cons, hdead] at h
          exact absurd h (not_accepts_dead tail)
      · rw [hdead] at h
        exact absurd h (not_accepts_dead x)

/-- Behind an opening bracket: a literal, and the closing bracket. -/
theorem literal_taken {x : List UInt8}
    (h : (x.foldl parseHostChar .s_http_host_v6_start).accepts) :
    ∃ host rest, x = host ++ (']' : UInt8) :: rest ∧ IsLiteral host ∧
      (rest.foldl parseHostChar .s_http_host_v6_end).accepts := by
  have hstart : ∀ c : UInt8,
      isV6Char c = true ∧ parseHostChar .s_http_host_v6_start c = .s_http_host_v6 ∨
      parseHostChar .s_http_host_v6_start c = .s_http_host_dead := by
    intro c
    rw [parseHostChar_v6_start]
    exact ite_cases _ _ _
  have hv6 : ∀ c : UInt8,
      isV6Char c = true ∧ parseHostChar .s_http_host_v6 c = .s_http_host_v6 ∨
      c = ']' ∧ parseHostChar .s_http_host_v6 c = .s_http_host_v6_end ∨
      c = '%' ∧ parseHostChar .s_http_host_v6 c = .s_http_host_v6_zone_start ∨
      parseHostChar .s_http_host_v6 c = .s_http_host_dead := by
    intro c
    rw [parseHostChar_v6]
    exact ite_cases₃ _ _ _ _ _ _ _
  cases x with
  | nil => exact absurd h (by decide)
  | cons c x =>
      rw [List.foldl_cons] at h
      rcases hstart c with ⟨hfirst, hc⟩ | hdead
      · obtain ⟨address, rest, rfl, hstays, haddress, hrest⟩ := exists_stretch hv6 x
        have hchars : ∀ b ∈ c :: address, isV6Char b = true :=
          List.forall_mem_cons.mpr ⟨hfirst, haddress⟩
        rw [hc, List.foldl_append, hstays.foldl] at h
        rcases hrest with rfl | ⟨d, tail, rfl, ⟨rfl, hend⟩ | ⟨rfl, hzone⟩ | hdead⟩
        · exact absurd h (by decide)
        · rw [List.foldl_cons, hend] at h
          refine ⟨c :: address, tail, rfl, ⟨c :: address, [], ?_, by simp, hchars, .inl rfl⟩, h⟩
          rw [List.append_nil]
        · rw [List.foldl_cons, hzone] at h
          obtain ⟨id, rest, htail, hne, hid, hacc⟩ := zone_taken h
          refine ⟨c :: address ++ ('%' : UInt8) :: id, rest, ?_,
            ⟨c :: address, ('%' : UInt8) :: id, rfl, by simp, hchars, .inr ⟨id, rfl, hne, hid⟩⟩,
            hacc⟩
          rw [htail]
          simp
        · rw [List.foldl_cons, hdead] at h
          exact absurd h (not_accepts_dead tail)
      · rw [hdead] at h
        exact absurd h (not_accepts_dead x)

/-- Behind the user information: a name or a literal, and a port. -/
theorem hostText_taken {x : List UInt8} (h : (x.foldl parseHostChar .s_http_host_start).accepts) :
    ∃ a : Authority, a.hasAt = false ∧ a.text = x := by
  have hstart : ∀ c : UInt8, c = '[' ∧ parseHostChar .s_http_host_start c = .s_http_host_v6_start ∨
      isHostChar c = true ∧ parseHostChar .s_http_host_start c = .s_http_host ∨
      parseHostChar .s_http_host_start c = .s_http_host_dead :=
    fun _ => ite_cases₂ _ _ _ _ _
  have hname : ∀ c : UInt8, isHostChar c = true ∧ parseHostChar .s_http_host c = .s_http_host ∨
      LeavesHost .s_http_host c := by
    intro c
    rw [LeavesHost, parseHostChar_name]
    exact ite_cases₂ _ _ _ _ _
  have hend : ∀ c : UInt8, LeavesHost .s_http_host_v6_end c := by
    intro c
    rw [LeavesHost, parseHostChar_v6_end]
    exact ite_cases _ _ _
  cases x with
  | nil => exact absurd h (by decide)
  | cons c x =>
      rw [List.foldl_cons] at h
      rcases hstart c with ⟨rfl, hopen⟩ | ⟨hfirst, hc⟩ | hdead
      · rw [hopen] at h
        obtain ⟨host, rest, rfl, hform, hacc⟩ := literal_taken h
        have hrest : rest = [] ∨ ∃ c tail, rest = c :: tail ∧ LeavesHost .s_http_host_v6_end c := by
          cases rest with
          | nil => exact .inl rfl
          | cons d tail => exact .inr ⟨d, tail, rfl, hend d⟩
        obtain ⟨port, hport, hdigits⟩ := portText_taken hrest hacc
        refine ⟨⟨[], false, true, host, port, by simp, fun _ => rfl, hform, hdigits⟩, rfl, ?_⟩
        rw [hport]
        simp [Authority.text, Authority.userText, Authority.hostText, Authority.portText]
      · obtain ⟨name, rest, rfl, hstays, hchars, hrest⟩ := exists_stretch hname x
        rw [hc, List.foldl_append, hstays.foldl] at h
        obtain ⟨port, hport, hdigits⟩ := portText_taken hrest h
        have hform : IsName (c :: name) := ⟨by simp, List.forall_mem_cons.mpr ⟨hfirst, hchars⟩⟩
        refine ⟨⟨[], false, false, c :: name, port, by simp, fun _ => rfl, hform, hdigits⟩, rfl, ?_⟩
        rw [hport]
        simp [Authority.text, Authority.userText, Authority.hostText, Authority.portText]
      · rw [hdead] at h
        exact absurd h (not_accepts_dead x)

/-- Behind user information that a `@` closes. -/
theorem userText_taken {x : List UInt8}
    (h : (x.foldl parseHostChar .s_http_userinfo_start).accepts) :
    ∃ a : Authority, a.hasAt = true ∧ a.text = x := by
  have hstep : ∀ c : UInt8,
      isUserinfoChar c = true ∧ parseHostChar .s_http_userinfo c = .s_http_userinfo ∨
      c = '@' ∧ parseHostChar .s_http_userinfo c = .s_http_host_start ∨
      parseHostChar .s_http_userinfo c = .s_http_host_dead :=
    fun _ => or_left_comm.mp (ite_cases₂ _ _ _ _ _)
  obtain ⟨userinfo, rest, rfl, hstays, hchars, hrest⟩ := exists_stretch hstep x
  -- both states do the same with a byte
  have hsame : ∀ c l, ((c :: l).foldl parseHostChar .s_http_userinfo_start).accepts →
      ((c :: l).foldl parseHostChar .s_http_userinfo).accepts := fun _ _ h => h
  have hrun : ((userinfo ++ rest).foldl parseHostChar .s_http_userinfo).accepts := by
    cases hx : userinfo ++ rest with
    | nil =>
        rw [hx] at h
        exact absurd h (by decide)
    | cons c l =>
        rw [hx] at h
        exact hsame c l h
  rw [List.foldl_append, hstays.foldl] at hrun
  rcases hrest with rfl | ⟨c, tail, rfl, ⟨rfl, hstart⟩ | hdead⟩
  · exact absurd hrun (by decide)
  · rw [List.foldl_cons, hstart] at hrun
    obtain ⟨a, hat, rfl⟩ := hostText_taken hrun
    have huser : a.userText = [] := by rw [Authority.userText, hat, a.userinfo_at hat]; rfl
    refine ⟨⟨userinfo, true, a.bracketed, a.host, a.port, hchars, by simp, a.host_form,
      a.port_chars⟩, rfl, ?_⟩
    rw [Authority.text, Authority.text, huser]
    simp [Authority.userText, Authority.hostText, Authority.portText]
  · rw [List.foldl_cons, hdead] at hrun
    exact absurd hrun (not_accepts_dead tail)

/-- What `http_parse_host` takes is the text of an authority. -/
theorem exists_authority {foundAt : Bool} {x : List UInt8}
    (h : (x.foldl parseHostChar
      (if foundAt then .s_http_userinfo_start else .s_http_host_start)).accepts) :
    ∃ a : Authority, a.hasAt = foundAt ∧ a.text = x := by
  cases foundAt with
  | true => exact userText_taken h
  | false => exact hostText_taken h

end Gxh.HttpParser
