import Gxh.HttpParser.Steady

/-!
# One buffer or two

`http_parser_execute` on the bytes `xs ++ ys` against a call on `xs` followed by a call on `ys`.
At the end of the first call the bytes under a mark are reported, and the second call sets the
mark anew: the element reaches the embedder in two fragments. `Behind` relates the one run to
the other while such an element lasts.

`execute_append`: if the cut falls outside every url, header field and header value, and the
embedder puts the fragments of bodies and status texts together (`Settings.Seamless`), the two
calls end in the same parser and the same object as the one call.
-/

namespace Gxh.HttpParser

variable {σ : Type} {settings : Settings σ} {e e' : Exec σ}

/-- All the rounds of a buffer, if none ends the call. -/
def walk (settings : Settings σ) (e : Exec σ) : List UInt8 → Option (Exec σ)
  | [] => some e
  | ch :: rest =>
      match turn settings e ch with
      | .stop _ _ => none
      | .next e => walk settings (e.advance ch) rest

theorem run_of_walk {xs : List UInt8} {e₁ : Exec σ} (h : walk settings e xs = some e₁)
    (pos : Nat) (ys : List UInt8) :
    run settings e pos (xs ++ ys) = run settings e₁ (pos + xs.length) ys := by
  induction xs generalizing e pos with
  | nil =>
      cases h
      rfl
  | cons ch rest ih =>
      simp only [walk] at h
      simp only [List.cons_append, run, List.length_cons]
      cases ht : turn settings e ch with
      | stop e₂ n =>
          rw [ht] at h
          cases h
      | next e₂ =>
          rw [ht] at h
          show run settings (e₂.advance ch) (pos + 1) (rest ++ ys) = _
          rw [ih h, Nat.add_right_comm, Nat.add_assoc]

theorem walk_append {xs : List UInt8} {e₁ : Exec σ} (h : walk settings e xs = some e₁)
    (ys : List UInt8) : walk settings e (xs ++ ys) = walk settings e₁ ys := by
  induction xs generalizing e with
  | nil =>
      cases h
      rfl
  | cons ch rest ih =>
      simp only [walk, List.cons_append] at h ⊢
      cases ht : turn settings e ch with
      | stop e₂ n =>
          rw [ht] at h
          cases h
      | next e₂ =>
          rw [ht] at h
          exact ih h

theorem execute_eq_run {p : Parser} {xs : List UInt8} (hp : p.http_errno = .HPE_OK) (hx : xs ≠ [])
    (u : σ) : execute settings p u xs = run settings (.start p u) 0 xs := by
  unfold execute
  rw [if_neg (not_not.mpr hp), if_neg hx]

/-- A call whose rounds all succeed. -/
theorem execute_of_walk {p : Parser} {u : σ} {xs : List UInt8} {e₁ : Exec σ}
    (hp : p.http_errno = .HPE_OK) (hx : xs ≠ []) (h : walk settings (.start p u) xs = some e₁) :
    execute settings p u xs = endOfData settings e₁ xs.length := by
  have hrun := run_of_walk h 0 []
  rw [List.append_nil, Nat.zero_add] at hrun
  rw [execute_eq_run hp hx, hrun]
  rfl

/-- Rounds that succeed keep `Steady`, and map to those under an image of the settings. -/
theorem walk_steady {τ : Type} {T : Settings τ} {f : σ → τ} (hT : settings.Hom T f)
    (hset : settings.KeepsBody) {xs : List UInt8} {e₁ : Exec σ}
    (he : e.Steady) (h : walk settings e xs = some e₁) :
    e₁.Steady ∧ walk T (e.map f) xs = some (e₁.map f) := by
  induction xs generalizing e with
  | nil =>
      cases h
      exact ⟨he, rfl⟩
  | cons ch rest ih =>
      have hs := turn_sound hT hset he ch
      simp only [walk] at h ⊢
      cases ht : turn settings e ch with
      | stop e₂ n =>
          rw [ht] at h
          cases h
      | next e₂ =>
          rw [ht] at h hs
          have he₂ : e₂.Steady := hs.steady e₂ rfl
          rw [hs.image he₂.ok]
          exact ih (he₂.advance ch) h

/-- A call that meets neither an error nor an upgrade runs through all of its bytes. -/
theorem walk_of_run (hset : settings.KeepsBody) {xs ys : List UInt8} {pos : Nat}
    (he : e.Steady) (hok : (run settings e pos (xs ++ ys)).parser.http_errno = .HPE_OK)
    (hup : (run settings e pos (xs ++ ys)).parser.upgrade = false) :
    ∃ e₁, walk settings e xs = some e₁ := by
  induction xs generalizing e pos with
  | nil => exact ⟨e, rfl⟩
  | cons ch rest ih =>
      have hs := turn_sound (hom_bare settings) hset he ch
      simp only [walk]
      simp only [List.cons_append, run] at hok hup
      cases ht : turn settings e ch with
      | stop e₂ n =>
          rw [ht] at hok hup hs
          have htrue := hs.stopped e₂ n rfl hok
          rw [show e₂.parser.upgrade = false from hup] at htrue
          cases htrue
      | next e₂ =>
          rw [ht] at hok hup hs
          exact ih ((hs.steady e₂ rfl).advance ch) hok hup

/-! ## The end of a call -/

/-- An embedder that puts the fragments of `d` together. -/
structure Settings.Seamless (settings : Settings σ) (d : Data) : Prop where
  ok : ∀ p l u, (settings.onData d p l u).2 = 0
  agree : ∀ p q l u, p.status_code = q.status_code →
    settings.onData d p l u = settings.onData d q l u
  append : ∀ p a b u,
    settings.onData d p (a ++ b) u = settings.onData d p b (settings.onData d p a u).1

theorem callbackData_seamless {d : Data} (hd : settings.Seamless d) {t : List UInt8} {adv : Nat}
    {l : List UInt8} {k : Exec σ → Turn σ} (h : e.mark d = some l) :
    e.callbackData settings d t adv k =
      k { e with
        user := (settings.onData d e.parser (l ++ t) e.user).1
        mark := Function.update e.mark d none } := by
  rw [Exec.callbackData_some h, if_neg (not_not.mpr (hd.ok e.parser (l ++ t) e.user))]

/-! ## Images of calls -/

section Image

variable {τ : Type} {T : Settings τ} {f : σ → τ}

theorem callbackData_image (hT : settings.Hom T f) {d : Data} {t : List UInt8} {adv : Nat}
    {k : Exec σ → Turn σ} {k' : Exec τ → Turn τ}
    (hk : ∀ x, (k x).errno = .HPE_OK → k' (x.map f) = (k x).map f)
    (hok : (e.callbackData settings d t adv k).errno = .HPE_OK) :
    (e.map f).callbackData T d t adv k' = (e.callbackData settings d t adv k).map f := by
  cases hm : e.mark d with
  | none =>
      rw [Exec.callbackData_none hm] at hok ⊢
      rw [Exec.callbackData_none (e := e.map f) hm]
      exact hk e hok
  | some l =>
      rw [Exec.callbackData_some hm] at hok ⊢
      rw [Exec.callbackData_some (e := e.map f) hm]
      by_cases hr : (settings.onData d e.parser (l ++ t) e.user).2 = 0
      · rw [if_neg (not_not.mpr hr)] at hok ⊢
        rw [show T.onData d (e.map f).parser (l ++ t) (e.map f).user = _ from
          hT.data d e.parser (l ++ t) e.user hr, if_neg (not_not.mpr rfl)]
        exact hk _ hok
      · rw [if_pos hr] at hok
        cases hok

theorem flush_image (hT : settings.Hom T f) (hok : (flush settings e).errno = .HPE_OK) :
    flush T (e.map f) = (flush settings e).map f := by
  unfold flush at hok ⊢
  refine callbackData_image hT (fun e₁ h₁ => ?_) hok
  refine callbackData_image hT (fun e₂ h₂ => ?_) h₁
  refine callbackData_image hT (fun e₃ h₃ => ?_) h₂
  refine callbackData_image hT (fun e₄ h₄ => ?_) h₃
  exact callbackData_image hT (fun _ _ => rfl) h₄

def Result.map (f : σ → τ) (r : Result σ) : Result τ := ⟨r.parser, f r.user, r.nparsed⟩

theorem result_errno (a : Turn σ) (pos : Nat) : (a.result pos).parser.http_errno = a.errno := by
  cases a <;> rfl

theorem result_map (a : Turn σ) (pos : Nat) : (a.map f).result pos = (a.result pos).map f := by
  cases a <;> rfl

theorem endOfData_image (hT : settings.Hom T f) {pos : Nat}
    (hok : (endOfData settings e pos).parser.http_errno = .HPE_OK) :
    endOfData T (e.map f) pos = (endOfData settings e pos).map f := by
  unfold endOfData at hok ⊢
  rw [Exec.map_scan]
  cases hsc : e.scan with
  | none =>
      simp only [hsc, result_errno] at hok
      rw [flush_image hT hok, result_map]
  | some k =>
      simp only [hsc, Exec.countHeaderSize, Exec.parser_modify, Exec.parser_map] at hok ⊢
      by_cases hover : maxHeaderSize < (e.parser.nread + k) % 2 ^ 32
      · simp only [hover, if_true] at hok
        cases hok
      · simp only [hover, if_false, result_errno] at hok ⊢
        rw [← result_map, ← flush_image hT hok]
        rfl

/-- Without an error a call maps to the call under an image of the settings. -/
theorem run_image (hT : settings.Hom T f) (hset : settings.KeepsBody) {xs : List UInt8}
    {pos : Nat} (he : e.Steady) (hok : (run settings e pos xs).parser.http_errno = .HPE_OK) :
    run T (e.map f) pos xs = (run settings e pos xs).map f := by
  induction xs generalizing e pos with
  | nil => exact endOfData_image hT hok
  | cons ch rest ih =>
      have hs := turn_sound hT hset he ch
      simp only [run] at hok ⊢
      cases ht : turn settings e ch with
      | stop e₂ n =>
          rw [ht] at hok hs
          rw [hs.image hok]
          rfl
      | next e₂ =>
          rw [ht] at hok hs
          have he₂ : e₂.Steady := hs.steady e₂ rfl
          rw [hs.image he₂.ok]
          exact ih (he₂.advance ch) hok

theorem execute_image (hT : settings.Hom T f) (hset : settings.KeepsBody) {p : Parser} {u : σ}
    {xs : List UInt8} (hp : p.http_errno = .HPE_OK) (hx : xs ≠ [])
    (hok : (execute settings p u xs).parser.http_errno = .HPE_OK) :
    execute T p (f u) xs = (execute settings p u xs).map f := by
  rw [execute_eq_run hp hx] at hok ⊢
  rw [execute_eq_run hp hx]
  exact run_image hT hset (Exec.steady_start hp u) hok

end Image

/-- What no callback touches is after a call what it was before. -/
theorem execute_untouched {α : Type} {f : σ → α} (hset : settings.KeepsBody)
    (hnotify : ∀ n p u, f (settings.onNotify n p u).1 = f u)
    (hdata : ∀ d p l u, f (settings.onData d p l u).1 = f u)
    {p : Parser} {u : σ} {xs : List UInt8} (hp : p.http_errno = .HPE_OK) (hx : xs ≠ [])
    (hok : (execute settings p u xs).parser.http_errno = .HPE_OK) :
    f (execute settings p u xs).user = f u := by
  -- the settings that keep their object are an image of `settings` and of `bare`
  let still : Settings α := ⟨fun _ _ a => (a, 0), fun _ _ _ a => (a, 0)⟩
  have hstill : settings.Hom still f :=
    ⟨fun n p u _ => by rw [hnotify n p u], fun d p l u _ => by rw [hdata d p l u]⟩
  have hbare : bare.Hom still fun _ => f u := ⟨fun _ _ _ _ => rfl, fun _ _ _ _ _ => rfl⟩
  have hbareOk : (execute bare p () xs).parser.http_errno = .HPE_OK := by
    rw [show execute bare p () xs = _ from execute_image (hom_bare settings) hset hp hx hok]
    exact hok
  have h₁ := execute_image hstill hset hp hx hok
  have h₂ := execute_image hbare (fun _ _ => rfl) hp hx hbareOk
  exact congrArg Result.user (h₁.symm.trans h₂)

/-! ## Behind by a fragment -/

/-- `e'` has reported a first fragment of `d` that in `e` is still under the mark. -/
structure Gap (settings : Settings σ) (d : Data) (e e' : Exec σ) : Prop where
  parser : e'.parser = e.parser
  only : e.Only (some d)
  only' : e'.Only (some d)
  gap : ∃ w, e.mark d = some (w ++ (e'.mark d).getD []) ∧
    e'.user = (settings.onData d e.parser w e.user).1

theorem Exec.Idle.ext (h : e.Idle) (h' : e'.Idle) (hp : e'.parser = e.parser)
    (hu : e'.user = e.user) : e = e' := by
  obtain ⟨p, u, m, sc⟩ := e
  obtain ⟨p', u', m', sc'⟩ := e'
  obtain rfl : p' = p := hp
  obtain rfl : u' = u := hu
  obtain rfl : sc = none := h.scan
  obtain rfl : sc' = none := h'.scan
  obtain rfl : m = m' := funext fun d => (h.marks d nofun).trans (h'.marks d nofun).symm
  rfl

variable {d : Data}

theorem Gap.modify (hd : settings.Seamless d) (h : Gap settings d e e') {f : Parser → Parser}
    (hok : ∀ p, (f p).http_errno = p.http_errno)
    (hst : ∀ p, (f p).status_code = p.status_code) :
    Gap settings d (e.modify f) (e'.modify f) where
  parser := congrArg f h.parser
  only := h.only.modify (hok _)
  only' := h.only'.modify (hok _)
  gap := by
    obtain ⟨w, hm, hu⟩ := h.gap
    refine ⟨w, hm, hu.trans ?_⟩
    show _ = (settings.onData d (f e.parser) w e.user).1
    rw [hd.agree (f e.parser) e.parser w e.user (hst _)]

theorem Gap.goto (hd : settings.Seamless d) (h : Gap settings d e e') (s : State) :
    Gap settings d (e.goto s) (e'.goto s) :=
  h.modify (f := fun p => { p with state := s }) hd (fun _ => rfl) fun _ => rfl

theorem Gap.setMark (h : Gap settings d e e') : Gap settings d (e.setMark d) (e'.setMark d) where
  parser := h.parser
  only := h.only.mark_again
  only' := h.only'.mark_again
  gap := by
    obtain ⟨w, hm, hu⟩ := h.gap
    refine ⟨w, ?_, hu⟩
    simp [Exec.setMark, hm]

theorem Gap.advance (h : Gap settings d e e') (hsome : (e'.mark d).isSome = true) (ch : UInt8) :
    Gap settings d (e.advance ch) (e'.advance ch) where
  parser := h.parser
  only := ⟨h.only.ok, fun x hx => by simp [Exec.advance, h.only.marks x hx], h.only.scan⟩
  only' := ⟨h.only'.ok, fun x hx => by simp [Exec.advance, h.only'.marks x hx], h.only'.scan⟩
  gap := by
    obtain ⟨w, hm, hu⟩ := h.gap
    obtain ⟨m, hm'⟩ := Option.isSome_iff_exists.mp hsome
    refine ⟨w, ?_, hu⟩
    simp [Exec.advance, hm, hm']

/-- The callback of `d` closes the gap. -/
theorem Gap.data (hd : settings.Seamless d) (h : Gap settings d e e') {t : List UInt8} {adv : Nat}
    {k : Exec σ → Turn σ} (ht : t = [] ∨ (e'.mark d).isSome = true) :
    e.callbackData settings d t adv k = e'.callbackData settings d t adv k := by
  obtain ⟨w, hm, hu⟩ := h.gap
  have hidle : Exec.Idle { e with
      user := (settings.onData d e.parser (w ++ (e'.mark d).getD [] ++ t) e.user).1
      mark := Function.update e.mark d none } := h.only.cleared rfl rfl rfl
  rw [callbackData_seamless hd hm]
  cases hm' : e'.mark d with
  | none =>
      rw [hm'] at hidle
      rw [Option.getD_none, List.append_nil] at hidle ⊢
      obtain rfl : t = [] := by simpa [hm'] using ht
      rw [Exec.callbackData_none hm']
      congr 1
      refine hidle.ext ⟨h.only'.ok, ?_, h.only'.scan⟩ h.parser ?_
      · intro x _
        by_cases hx : d = x
        · exact hx ▸ hm'
        · exact h.only'.marks x fun heq => hx (Option.some.inj heq)
      · simpa using hu
  | some m =>
      rw [hm'] at hidle
      rw [Option.getD_some] at hidle ⊢
      rw [callbackData_seamless hd hm']
      congr 1
      refine hidle.ext (h.only'.cleared rfl rfl rfl) h.parser ?_
      show (settings.onData d e'.parser (m ++ t) e'.user).1 = _
      rw [h.parser, hu, ← hd.append, List.append_assoc]

/-- `Gap` in a state in which the element goes on. -/
structure Behind (settings : Settings σ) (d : Data) (e e' : Exec σ) : Prop
    extends Gap settings d e e' where
  here : d = .body ∧ e.parser.state.inBody = true ∨
    d = .status ∧ e.parser.state = .s_res_status ∧ (e'.mark .status).isSome = true

/-- Two rounds on the same byte: they end alike, or the second is still behind, or the first
meets an error. -/
def Abreast (settings : Settings σ) (d : Data) (ch : UInt8) (a b : Turn σ) : Prop :=
  a = b ∨ (∃ e e', a = .next e ∧ b = .next e' ∧
    Behind settings d (e.advance ch) (e'.advance ch)) ∨
    ∃ e n, a = .stop e n ∧ e.parser.http_errno ≠ .HPE_OK

theorem abreast_resStatus (hd : settings.Seamless .status) (h : Gap settings .status e e')
    (hst : e.parser.state = .s_res_status) (hsome : (e'.mark .status).isSome = true)
    (ch : UInt8) :
    Abreast settings .status ch (resStatus settings e ch) (resStatus settings e' ch) := by
  unfold resStatus
  split
  · exact .inl ((h.goto hd _).data hd (.inl rfl))
  · split
    · exact .inl ((h.goto hd _).data hd (.inl rfl))
    · refine .inr (.inl ⟨e, e', rfl, rfl, h.advance hsome ch, .inr ⟨rfl, hst, ?_⟩⟩)
      simpa [Exec.advance] using hsome

/-- A round that leaves the body open. -/
theorem abreast_next (h : Gap settings .body e e') (hs : e.parser.state.inBody = true)
    (hsome : (e'.mark .body).isSome = true) (ch : UInt8) :
    Abreast settings .body ch (.next e) (.next e') :=
  .inr (.inl ⟨e, e', rfl, rfl, h.advance hsome ch, .inl ⟨rfl, hs⟩⟩)

/-- One byte of a body of known length. -/
theorem Gap.take (hd : settings.Seamless .body) (h : Gap settings .body e e') :
    Gap settings .body
      ((e.setMark .body).modify fun p => { p with content_length := p.content_length - 1 })
      ((e'.setMark .body).modify fun p => { p with content_length := p.content_length - 1 }) :=
  h.setMark.modify hd (fun _ => rfl) fun _ => rfl

theorem abreast_body (hd : settings.Seamless .body) (h : Gap settings .body e e')
    (hs : e.parser.state.inBody = true) (ch : UInt8) :
    Abreast settings .body ch (switch settings e ch) (switch settings e' ch) := by
  have hstate := congrArg Parser.state h.parser
  have hlen := congrArg Parser.content_length h.parser
  have hsome := e'.setMark_isSome .body
  unfold switch
  rw [hstate]
  cases hst : e.parser.state <;> rw [hst] at hs <;> try cases hs
  case s_body_identity =>
    show Abreast settings .body ch (bodyIdentity settings e ch) (bodyIdentity settings e' ch)
    unfold bodyIdentity
    by_cases hz : e.parser.content_length - 1 = 0
    · left
      simp only [Exec.parser_modify, Exec.parser_setMark, hlen, hz, if_true]
      exact ((h.take hd).goto hd _).data hd (.inr hsome)
    · simp only [Exec.parser_modify, Exec.parser_setMark, hlen, hz, if_false]
      refine abreast_next (h.take hd) ?_ hsome ch
      rw [Exec.parser_modify, Exec.parser_setMark, hst]
      rfl
  case s_body_identity_eof =>
    refine abreast_next h.setMark ?_ hsome ch
    rw [Exec.parser_setMark, hst]
    rfl
  case s_chunk_data =>
    show Abreast settings .body ch (chunkData e) (chunkData e')
    unfold chunkData
    by_cases hz : e.parser.content_length - 1 = 0
    · simp only [Exec.parser_modify, Exec.parser_setMark, hlen, hz, if_true]
      exact abreast_next ((h.take hd).goto hd _) rfl hsome ch
    · simp only [Exec.parser_modify, Exec.parser_setMark, hlen, hz, if_false]
      refine abreast_next (h.take hd) ?_ hsome ch
      rw [Exec.parser_modify, Exec.parser_setMark, hst]
      rfl
  case s_chunk_data_almost_done =>
    show Abreast settings .body ch (chunkDataAlmostDone settings e ch)
      (chunkDataAlmostDone settings e' ch)
    unfold chunkDataAlmostDone Exec.strictCheck
    by_cases hc : ch = CR
    · simp only [hc, ne_eq, not_true_eq_false, decide_false, Bool.false_eq_true, if_false]
      exact .inl ((h.goto hd _).data hd (.inl rfl))
    · have hne : decide (ch ≠ CR) = true := decide_eq_true hc
      simp only [hne, if_true]
      exact .inr (.inr ⟨_, _, rfl, nofun⟩)

theorem Behind.turn (hbody : settings.Seamless .body) (hstatus : settings.Seamless .status)
    (h : Behind settings d e e') (ch : UInt8) :
    Abreast settings d ch (turn settings e ch) (turn settings e' ch) := by
  unfold HttpParser.turn
  rw [h.only.scan, h.only'.scan, congrArg Parser.state h.parser]
  rcases h.here with ⟨rfl, hs⟩ | ⟨rfl, hst, hsome⟩
  · have hph : e.parser.state.parsingHeader = false := by
      cases hst : e.parser.state <;> rw [hst] at hs <;> first | rfl | cases hs
    simp only [hph, Bool.false_eq_true, if_false]
    exact abreast_body hbody h.toGap hs ch
  · have hgap := h.toGap.modify hstatus
      (f := fun p => { p with nread := (p.nread + 1) % 2 ^ 32 }) (fun _ => rfl) fun _ => rfl
    have hph : e.parser.state.parsingHeader = true := by
      rw [hst]
      rfl
    simp only [hph, if_true]
    by_cases hover : maxHeaderSize < (e.parser.nread + 1) % 2 ^ 32
    · simp only [Exec.countHeaderSize, Exec.parser_modify, hover, if_true]
      exact .inr (.inr ⟨_, _, rfl, nofun⟩)
    · have hswitch : ∀ x : Exec σ, x.parser.state = .s_res_status →
          switch settings x ch = resStatus settings x ch := by
        intro x hx
        unfold switch
        rw [hx]
      simp only [Exec.countHeaderSize, Exec.parser_modify, congrArg Parser.nread h.parser, hover,
        if_false]
      rw [hswitch, hswitch]
      · exact abreast_resStatus hstatus hgap hst hsome ch
      · exact (congrArg Parser.state h.parser).trans hst
      · exact hst

theorem callbackData_congr {t : List UInt8} {adv : Nat} {k k' : Exec σ → Turn σ}
    (h : ∀ x : Exec σ, x.mark = Function.update e.mark d none → k x = k' x) :
    e.callbackData settings d t adv k = e.callbackData settings d t adv k' := by
  unfold Exec.callbackData
  cases hm : e.mark d with
  | none => exact h e (by rw [← hm, Function.update_eq_self])
  | some l =>
      simp only
      split
      · rfl
      · exact h _ rfl

/-- Outside urls, header fields and header values one mark at most is left over. -/
theorem flush_only (h : e.Only (some d)) (hd : d = .body ∨ d = .status) :
    flush settings e = e.callbackData settings d [] 0 .next := by
  unfold flush
  rcases hd with rfl | rfl
  · rw [Exec.callbackData_none (h.marks .header_field nofun),
      Exec.callbackData_none (h.marks .header_value nofun),
      Exec.callbackData_none (h.marks .url nofun)]
    apply callbackData_congr
    intro x hx
    apply Exec.callbackData_none
    rw [hx, Function.update_of_ne (show Data.status ≠ .body by decide)]
    exact h.marks .status nofun
  · rw [Exec.callbackData_none (h.marks .header_field nofun),
      Exec.callbackData_none (h.marks .header_value nofun),
      Exec.callbackData_none (h.marks .url nofun),
      Exec.callbackData_none (h.marks .body nofun)]

theorem flush_idle (h : e.Idle) : flush settings e = .next e := by
  rw [flush_only (h.mono (some .body)) (.inl rfl), Exec.callbackData_none (h.marks .body nofun)]

/-- The parser and the object a call leaves, without the number of bytes. -/
def Result.same (r r' : Result σ) : Prop := r'.parser = r.parser ∧ r'.user = r.user

theorem result_same (a : Turn σ) (pos pos' : Nat) : (a.result pos).same (a.result pos') := by
  cases a <;> exact ⟨rfl, rfl⟩

theorem run_same (e : Exec σ) (ys : List UInt8) (pos pos' : Nat) :
    (run settings e pos ys).same (run settings e pos' ys) := by
  induction ys generalizing e pos pos' with
  | nil =>
      simp only [run, endOfData]
      split
      · exact result_same _ pos pos'
      · split
        · exact ⟨rfl, rfl⟩
        · exact result_same _ pos pos'
  | cons ch rest ih =>
      simp only [run]
      split
      · exact ⟨rfl, rfl⟩
      · exact ih _ _ _

/-- What is behind catches up: the callback that reports the end of the element comes, at the
latest at the end of the buffer. -/
theorem Behind.run (hbody : settings.Seamless .body) (hstatus : settings.Seamless .status)
    (h : Behind settings d e e') {ys : List UInt8} {pos : Nat}
    (hok : (run settings e pos ys).parser.http_errno = .HPE_OK) (pos' : Nat) :
    (run settings e pos ys).same (run settings e' pos' ys) := by
  induction ys generalizing e e' pos pos' with
  | nil =>
      have hd : settings.Seamless d ∧ (d = .body ∨ d = .status) := by
        rcases h.here with ⟨rfl, -⟩ | ⟨rfl, -⟩
        · exact ⟨hbody, .inl rfl⟩
        · exact ⟨hstatus, .inr rfl⟩
      simp only [HttpParser.run, endOfData, h.only.scan, h.only'.scan]
      rw [flush_only h.only hd.2, flush_only h.only' hd.2, h.toGap.data hd.1 (.inl rfl)]
      exact result_same _ pos pos'
  | cons ch rest ih =>
      simp only [HttpParser.run] at hok ⊢
      rcases h.turn hbody hstatus ch with heq | ⟨e₁, e₁', ht, ht', hnext⟩ | ⟨e₁, n, ht, hne⟩
      · rw [heq]
        split
        · exact ⟨rfl, rfl⟩
        · exact run_same _ _ _ _
      · rw [ht] at hok ⊢
        rw [ht']
        exact ih hnext hok _
      · rw [ht] at hok
        exact absurd hok hne

/-- The states in which a cut leaves urls, header fields and header values whole. -/
def State.clear (s : State) : Bool :=
  match s.element with
  | some .url | some .header_field | some .header_value => false
  | _ => true

theorem State.clear_cases {s : State} (h : s.clear = true) :
    s.element = none ∨ s = .s_res_status := by
  cases s <;> first | exact .inl rfl | exact .inr rfl | cases h

theorem Exec.start_idle {p : Parser} (hp : p.http_errno = .HPE_OK) (hel : p.state.element = none)
    (u : σ) : (Exec.start p u).Idle where
  ok := hp
  marks := by
    intro x _
    simp [Exec.start, hel]
  scan := rfl

/-- A call that ends in a clear state, and the locals of the next one. -/
theorem Exec.Steady.cut (hbody : settings.Seamless .body) (hstatus : settings.Seamless .status)
    (h : e.Steady) (hc : e.parser.state.clear = true) (pos : Nat) :
    ∃ u, endOfData settings e pos = ⟨e.parser, u, pos⟩ ∧
      (e = .start e.parser u ∨ ∃ d, Behind settings d e (.start e.parser u)) := by
  have hscan : e.scan = none := by
    apply h.scan_eq_none
    · intro hst
      rw [hst] at hc
      cases hc
    · intro hst
      rw [hst] at hc
      cases hc
  simp only [endOfData, hscan]
  rcases State.clear_cases hc with hel | hst
  · have hstart := fun u : σ => Exec.start_idle h.ok hel u
    -- in a body the bytes under the mark are reported at the cut, and the mark is set anew
    by_cases hin : e.parser.state.inBody = true
    · have ho := h.onlyBody hin
      cases hm : e.mark .body with
      | none =>
          have hi : e.Idle := by
            refine ⟨h.ok, fun x _ => ?_, hscan⟩
            by_cases hx : Data.body = x
            · exact hx ▸ hm
            · exact ho.marks x fun heq => hx (Option.some.inj heq)
          refine ⟨e.user, ?_, .inl (hi.ext (hstart e.user) rfl rfl)⟩
          rw [flush_idle hi]
          rfl
      | some w =>
          refine ⟨(settings.onData .body e.parser w e.user).1, ?_, .inr ⟨.body, ?_⟩⟩
          · rw [flush_only ho (.inl rfl), callbackData_seamless hbody hm, List.append_nil]
            rfl
          · refine ⟨⟨rfl, ho, (hstart _).mono _, w, ?_, rfl⟩, .inl ⟨rfl, hin⟩⟩
            rw [(hstart _).marks .body nofun, hm, Option.getD_none, List.append_nil]
    · have hi : e.Idle := by
        apply h.idle
        simpa [State.quiet, hel] using hin
      refine ⟨e.user, ?_, .inl (hi.ext (hstart e.user) rfl rfl)⟩
      rw [flush_idle hi]
      rfl
  -- the same for the text of a status
  · obtain ⟨ho, hsome⟩ := h.status hst
    obtain ⟨w, hm⟩ := Option.isSome_iff_exists.mp hsome
    have hel : e.parser.state.element = some .status := by
      rw [hst]
      rfl
    have hmark : ∀ u : σ, (Exec.start e.parser u).mark .status = some [] := by
      intro u
      simp [Exec.start, hel]
    refine ⟨(settings.onData .status e.parser w e.user).1, ?_, .inr ⟨.status, ?_⟩⟩
    · rw [flush_only ho (.inr rfl), callbackData_seamless hstatus hm, List.append_nil]
      rfl
    · refine ⟨⟨rfl, ho, ⟨h.ok, ?_, rfl⟩, w, ?_, rfl⟩, .inr ⟨rfl, hst, ?_⟩⟩
      · intro x hx
        simp only [Exec.start, hel, if_neg hx]
      · rw [hmark, hm, Option.getD_some, List.append_nil]
      · rw [hmark]
        rfl

/-! ## Two calls -/

theorem bare_seamless (d : Data) : bare.Seamless d :=
  ⟨fun _ _ _ => rfl, fun _ _ _ _ _ => rfl, fun _ _ _ _ => rfl⟩

def Turn.exec : Turn σ → Exec σ
  | .next e => e
  | .stop e _ => e

/-- A property of the kind of message, the state and the object that data callbacks keep. -/
def Settings.Keeps (settings : Settings σ) (P : ParserType → State → σ → Prop) : Prop :=
  ∀ d p l u t s, P t s u → P t s (settings.onData d p l u).1

def Exec.Has (P : ParserType → State → σ → Prop) (e : Exec σ) : Prop :=
  P e.parser.type e.parser.state e.user

section Keeps

variable {P : ParserType → State → σ → Prop}

theorem callbackData_keeps (hP : settings.Keeps P) {t : List UInt8} {adv : Nat}
    {k : Exec σ → Turn σ} (hk : ∀ x : Exec σ, x.Has P → (k x).exec.Has P) (he : e.Has P) :
    (e.callbackData settings d t adv k).exec.Has P := by
  cases hm : e.mark d with
  | none =>
      rw [Exec.callbackData_none hm]
      exact hk e he
  | some l =>
      rw [Exec.callbackData_some hm]
      split
      · exact hP d _ _ _ _ _ he
      · exact hk _ (hP d _ _ _ _ _ he)

theorem flush_keeps (hP : settings.Keeps P) (he : e.Has P) : (flush settings e).exec.Has P := by
  unfold flush
  refine callbackData_keeps hP (fun e₁ h₁ => ?_) he
  refine callbackData_keeps hP (fun e₂ h₂ => ?_) h₁
  refine callbackData_keeps hP (fun e₃ h₃ => ?_) h₂
  refine callbackData_keeps hP (fun e₄ h₄ => ?_) h₃
  exact callbackData_keeps hP (fun _ h₅ => h₅) h₄

/-- The end of a call leaves the state as it is, and of the object what data callbacks leave. -/
theorem endOfData_keeps (hP : settings.Keeps P) (he : e.Has P) (pos : Nat) :
    P (endOfData settings e pos).parser.type (endOfData settings e pos).parser.state
      (endOfData settings e pos).user := by
  have hresult : ∀ (a : Turn σ) n,
      (a.result n).parser = a.exec.parser ∧ (a.result n).user = a.exec.user := by
    rintro (x | x) n <;> exact ⟨rfl, rfl⟩
  unfold endOfData
  cases e.scan with
  | none =>
      rw [(hresult _ _).1, (hresult _ _).2]
      exact flush_keeps hP he
  | some k =>
      simp only [Exec.countHeaderSize]
      by_cases hover : maxHeaderSize < (e.parser.nread + k) % 2 ^ 32
      · simp only [Exec.parser_modify, hover, if_true]
        exact he
      · simp only [Exec.parser_modify, hover, if_false]
        rw [(hresult _ _).1, (hresult _ _).2]
        exact flush_keeps hP he

end Keeps

theorem endOfData_place (settings : Settings σ) (e : Exec σ) (pos : Nat) :
    (endOfData settings e pos).parser.type = e.parser.type ∧
      (endOfData settings e pos).parser.state = e.parser.state :=
  endOfData_keeps (P := fun t s _ => t = e.parser.type ∧ s = e.parser.state)
    (fun _ _ _ _ _ _ h => h) ⟨rfl, rfl⟩ pos

theorem callbackData_next {t : List UInt8} {adv : Nat} {k : Exec σ → Turn σ}
    (hk : ∀ x, (k x).errno = .HPE_OK → ∃ y, k x = .next y)
    (hok : (e.callbackData settings d t adv k).errno = .HPE_OK) :
    ∃ y, e.callbackData settings d t adv k = .next y := by
  cases hm : e.mark d with
  | none =>
      rw [Exec.callbackData_none hm] at hok ⊢
      exact hk e hok
  | some l =>
      rw [Exec.callbackData_some hm] at hok ⊢
      split at hok
      · cases hok
      · rename_i hr
        rw [if_neg hr]
        exact hk _ hok

theorem flush_next (hok : (flush settings e).errno = .HPE_OK) :
    ∃ y, flush settings e = .next y := by
  unfold flush at hok ⊢
  refine callbackData_next (fun e₁ h₁ => ?_) hok
  refine callbackData_next (fun e₂ h₂ => ?_) h₁
  refine callbackData_next (fun e₃ h₃ => ?_) h₂
  refine callbackData_next (fun e₄ h₄ => ?_) h₃
  exact callbackData_next (fun e₅ _ => ⟨e₅, rfl⟩) h₄

theorem endOfData_nparsed {pos : Nat}
    (hok : (endOfData settings e pos).parser.http_errno = .HPE_OK) :
    (endOfData settings e pos).nparsed = pos := by
  have hresult : ∀ x : Exec σ, ((flush settings x).result pos).parser.http_errno = .HPE_OK →
      ((flush settings x).result pos).nparsed = pos := by
    intro x hx
    rw [result_errno] at hx
    obtain ⟨y, hy⟩ := flush_next hx
    rw [hy]
    rfl
  unfold endOfData at hok ⊢
  cases hsc : e.scan with
  | none =>
      simp only [hsc] at hok
      exact hresult e hok
  | some k =>
      simp only [hsc, Exec.countHeaderSize, Exec.parser_modify] at hok ⊢
      by_cases hover : maxHeaderSize < (e.parser.nread + k) % 2 ^ 32
      · simp only [hover, if_true] at hok
        cases hok
      · simp only [hover, if_false] at hok ⊢
        exact hresult _ hok

/-- A call that meets neither an error nor an upgrade consumes all of its bytes. -/
theorem execute_nparsed (hset : settings.KeepsBody) {p : Parser} {u : σ} {xs : List UInt8}
    (hp : p.http_errno = .HPE_OK) (hx : xs ≠ [])
    (hok : (execute settings p u xs).parser.http_errno = .HPE_OK)
    (hup : (execute settings p u xs).parser.upgrade = false) :
    (execute settings p u xs).nparsed = xs.length := by
  have hwhole : ∃ e₁, walk settings (.start p u) xs = some e₁ := by
    rw [execute_eq_run hp hx, ← List.append_nil xs] at hok hup
    exact walk_of_run hset (Exec.steady_start hp u) hok hup
  obtain ⟨e₁, hwalk⟩ := hwhole
  rw [execute_of_walk hp hx hwalk] at hok
  rw [execute_of_walk hp hx hwalk]
  exact endOfData_nparsed hok

/-- One call on `xs ++ ys` leaves what a call on `xs` and a call on `ys` leave, if the parser
is in a clear state at the cut. -/
theorem execute_append (hset : settings.KeepsBody) (hbody : settings.Seamless .body)
    (hstatus : settings.Seamless .status) {p : Parser} {u : σ} {xs ys : List UInt8}
    (hp : p.http_errno = .HPE_OK) (hx : xs ≠ []) (hy : ys ≠ [])
    (hok : (execute settings p u (xs ++ ys)).parser.http_errno = .HPE_OK)
    (hup : (execute settings p u (xs ++ ys)).parser.upgrade = false)
    (hc : (execute bare p () xs).parser.state.clear = true) :
    ∃ u', execute settings p u xs = ⟨(execute bare p () xs).parser, u', xs.length⟩ ∧
      (execute bare p () xs).parser.http_errno = .HPE_OK ∧
      (execute settings p u (xs ++ ys)).same
        (execute settings (execute bare p () xs).parser u' ys) := by
  have hstart := Exec.steady_start hp u
  have hxy : xs ++ ys ≠ [] := fun h => hx (List.append_eq_nil_iff.mp h).1
  rw [execute_eq_run hp hxy] at hok hup ⊢
  obtain ⟨e₁, hwalk⟩ := walk_of_run hset hstart hok hup
  obtain ⟨h₁, hbareWalk⟩ := walk_steady (hom_bare settings) hset hstart hwalk
  have hbare : execute bare p () xs = endOfData bare (e₁.map fun _ => ()) xs.length :=
    execute_of_walk hp hx hbareWalk
  have hclear : e₁.parser.state.clear = true := by
    rw [hbare, (endOfData_place _ _ _).2] at hc
    exact hc
  -- the parser at the cut is the one `bare` finds
  have hparser : (execute bare p () xs).parser = e₁.parser := by
    have hb : (e₁.map fun _ => ()).Steady := ⟨h₁.ok, h₁.marks, h₁.body, h₁.scan⟩
    obtain ⟨u₂, hend, -⟩ := hb.cut (bare_seamless _) (bare_seamless _) hclear xs.length
    rw [hbare, hend]
    rfl
  obtain ⟨u', hend, hcut⟩ := h₁.cut hbody hstatus hclear xs.length
  rw [run_of_walk hwalk] at hok ⊢
  rw [hparser]
  refine ⟨u', (execute_of_walk hp hx hwalk).trans hend, h₁.ok, ?_⟩
  rw [execute_eq_run h₁.ok hy]
  rcases hcut with heq | ⟨d, hbehind⟩
  · rw [← heq]
    exact run_same _ _ _ _
  · exact hbehind.run hbody hstatus hok _

end Gxh.HttpParser
