import Gxh.HttpParser.Execute

/-!
# Marks follow the state

What holds between two rounds of the loop of `http_parser_execute`, and that the callbacks
decide nothing but failure.

* `Exec.Steady` — a mark is set exactly inside its element, so that a call that ends in a state
  outside every element has nothing left over but bytes of a body.
* `Settings.Hom` — settings `T` that do to `f u` what `S` does to `u`, as long as the callbacks
  of `S` succeed. `turn_sound` says of each round that it keeps `Steady`, that it ends the call
  only with an error or for an upgrade, and that without an error it maps to the round under
  `T`. `bare`, settings without effect, are an image of all others.
-/

namespace Gxh.HttpParser

variable {σ τ : Type}

/-- Settings that watch nothing. -/
def bare : Settings Unit where
  onNotify := fun _ _ _ => ((), 0)
  onData := fun _ _ _ _ => ((), 0)

/-- `f` maps the callbacks of `S`, where they succeed, to those of `T`. -/
structure Settings.Hom (S : Settings σ) (T : Settings τ) (f : σ → τ) : Prop where
  notify : ∀ n p u, (S.onNotify n p u).2 = 0 →
    T.onNotify n p (f u) = (f (S.onNotify n p u).1, 0)
  data : ∀ d p l u, (S.onData d p l u).2 = 0 →
    T.onData d p l (f u) = (f (S.onData d p l u).1, 0)

theorem hom_bare (S : Settings σ) : S.Hom bare fun _ => () :=
  ⟨fun _ _ _ _ => rfl, fun _ _ _ _ _ => rfl⟩

/-- `on_headers_complete` never asks to skip the body, and never fails. -/
def Settings.KeepsBody (settings : Settings σ) : Prop :=
  ∀ p u, (settings.onNotify .headers_complete p u).2 = 0

/-- The states in which bytes of a body may be marked. -/
def State.inBody : State → Bool
  | .s_body_identity | .s_body_identity_eof | .s_chunk_data | .s_chunk_data_almost_done => true
  | _ => false

/-- The states outside every element. -/
def State.quiet (s : State) : Bool := s.element = none && !s.inBody

theorem State.not_inBody {s : State} {d : Data} (h : s.element = some d) : s.inBody = false := by
  cases s <;> first | rfl | cases h

theorem State.element_of_inBody {s : State} (h : s.inBody = true) : s.element = none := by
  cases s <;> first | rfl | cases h

theorem State.element_ne_body (s : State) : s.element ≠ some .body := by
  cases s <;> decide

namespace Exec

/-- The same locals over the image of the object. -/
def map (e : Exec σ) (f : σ → τ) : Exec τ := ⟨e.parser, f e.user, e.mark, e.scan⟩

/-- What holds at the start of every round. -/
structure Steady (e : Exec σ) : Prop where
  ok : e.parser.http_errno = .HPE_OK
  marks : ∀ d, d ≠ .body → ((e.mark d).isSome = true ↔ e.parser.state.element = some d)
  body : (e.mark .body).isSome = true → e.parser.state.inBody = true
  scan : e.scan.isSome = true →
    e.parser.state = .s_header_field ∨ e.parser.state = .s_header_value

/-- No error, no loop inside a case, and no mark but that of `d`. -/
structure Only (d : Option Data) (e : Exec σ) : Prop where
  ok : e.parser.http_errno = .HPE_OK
  marks : ∀ x, d ≠ some x → e.mark x = none
  scan : e.scan = none

/-- Not even one mark. -/
abbrev Idle (e : Exec σ) : Prop := e.Only none

variable {e : Exec σ} {d : Data}

theorem Steady.mark_eq_none (h : e.Steady) {x : Data} (hx : e.parser.state.element ≠ some x)
    (hb : x = .body → e.parser.state.inBody = false) : e.mark x = none := by
  rw [← Option.not_isSome_iff_eq_none]
  intro hsome
  by_cases hxb : x = .body
  · subst hxb
    have hin := h.body hsome
    rw [hb rfl] at hin
    cases hin
  · exact hx ((h.marks x hxb).mp hsome)

theorem Steady.scan_eq_none (h : e.Steady) (hf : e.parser.state ≠ .s_header_field)
    (hv : e.parser.state ≠ .s_header_value) : e.scan = none := by
  rw [← Option.not_isSome_iff_eq_none]
  intro hsome
  rcases h.scan hsome with hst | hst
  · exact hf hst
  · exact hv hst

theorem Steady.idle (h : e.Steady) (hs : e.parser.state.quiet = true) : e.Idle := by
  simp only [State.quiet, Bool.and_eq_true, decide_eq_true_eq, Bool.not_eq_true'] at hs
  refine ⟨h.ok, ?_, ?_⟩
  · intro x _
    refine h.mark_eq_none ?_ fun _ => hs.2
    rw [hs.1]
    nofun
  · apply h.scan_eq_none
    · intro hst
      simp [hst, State.element] at hs
    · intro hst
      simp [hst, State.element] at hs

theorem Only.steady (h : e.Idle) (hs : e.parser.state.quiet = true) : e.Steady where
  ok := h.ok
  marks := by
    intro x _
    simp only [State.quiet, Bool.and_eq_true, decide_eq_true_eq] at hs
    simp [h.marks x nofun, hs.1]
  body := by simp [h.marks .body nofun]
  scan := by simp [h.scan]

theorem Only.mono (h : e.Idle) (d : Option Data) : e.Only d :=
  ⟨h.ok, fun x _ => h.marks x nofun, h.scan⟩

theorem Only.congr {d : Option Data} {e' : Exec σ} (h : e.Only d)
    (hok : e'.parser.http_errno = e.parser.http_errno) (hm : e'.mark = e.mark)
    (hs : e'.scan = e.scan) : e'.Only d :=
  ⟨hok.trans h.ok, fun x hx => hm ▸ h.marks x hx, hs.trans h.scan⟩

/-- After its callback the mark is gone. -/
theorem Only.cleared {e' : Exec σ} (h : e.Only (some d))
    (hok : e'.parser.http_errno = e.parser.http_errno)
    (hm : e'.mark = Function.update e.mark d none) (hs : e'.scan = e.scan) : e'.Idle where
  ok := hok.trans h.ok
  marks := by
    intro x _
    rw [hm]
    by_cases hx : x = d
    · rw [hx, Function.update_self]
    · rw [Function.update_of_ne hx]
      exact h.marks x fun heq => hx (Option.some.inj heq).symm
  scan := hs.trans h.scan

/-- Inside its element a mark stays set. -/
theorem Only.inside {d : Data} (h : e.Only (some d)) (hd : (e.mark d).isSome = true)
    (hin : e.parser.state.element = some d) : e.Steady where
  ok := h.ok
  marks := by
    intro x _
    rw [hin]
    by_cases hx : d = x
    · simp [← hx, hd]
    · simp [h.marks x fun heq => hx (Option.some.inj heq), hx]
  body := by
    have hne : some d ≠ some Data.body := hin ▸ State.element_ne_body _
    simp [h.marks .body hne]
  scan := by simp [h.scan]

@[simp] theorem parser_map (e : Exec σ) (f : σ → τ) : (e.map f).parser = e.parser := rfl
@[simp] theorem map_scan (e : Exec σ) (f : σ → τ) : (e.map f).scan = e.scan := rfl
@[simp] theorem goto_state (e : Exec σ) (s : State) : (e.goto s).parser.state = s := rfl
@[simp] theorem parser_modify (e : Exec σ) (f : Parser → Parser) :
    (e.modify f).parser = f e.parser := rfl
@[simp] theorem parser_setMark (e : Exec σ) (d : Data) : (e.setMark d).parser = e.parser := rfl

theorem Only.goto {d : Option Data} (h : e.Only d) (s : State) : (e.goto s).Only d :=
  h.congr rfl rfl rfl

theorem Only.modify {d : Option Data} (h : e.Only d) {f : Parser → Parser}
    (hf : (f e.parser).http_errno = e.parser.http_errno) : (e.modify f).Only d :=
  h.congr hf rfl rfl

theorem Only.mark_again (h : e.Only (some d)) : (e.setMark d).Only (some d) where
  ok := h.ok
  marks := by
    intro x hx
    have hne : x ≠ d := fun heq => hx (congrArg some heq.symm)
    simp only [Exec.setMark, Function.update_of_ne hne]
    exact h.marks x hx
  scan := h.scan

theorem Only.setMark (h : e.Idle) (d : Data) : (e.setMark d).Only (some d) :=
  (h.mono (some d)).mark_again

/-- In a body the mark may be set or not. -/
theorem Only.inBody (h : e.Only (some .body)) (hs : e.parser.state.inBody = true) : e.Steady where
  ok := h.ok
  marks := by
    intro x hx
    rw [State.element_of_inBody hs, h.marks x fun heq => hx (Option.some.inj heq).symm]
    simp
  body := fun _ => hs
  scan := by simp [h.scan]

theorem Steady.onlyBody (h : e.Steady) (hs : e.parser.state.inBody = true) :
    e.Only (some .body) where
  ok := h.ok
  marks := by
    intro x hx
    have hne : x ≠ .body := fun heq => hx (congrArg some heq.symm)
    refine h.mark_eq_none ?_ fun heq => absurd heq hne
    rw [State.element_of_inBody hs]
    nofun
  scan := by
    apply h.scan_eq_none
    · intro hst
      rw [hst] at hs
      cases hs
    · intro hst
      rw [hst] at hs
      cases hs

theorem Steady.only (h : e.Steady) (hs : e.parser.state.element = some d) :
    Exec.Only (some d) { e with scan := none } where
  ok := h.ok
  marks := fun _ hx => h.mark_eq_none (hs ▸ hx) fun _ => State.not_inBody hs
  scan := rfl

/-- Another byte of a header field or value. -/
theorem Steady.scanning {e' : Exec σ} (h : e.Steady)
    (hok : e'.parser.http_errno = e.parser.http_errno)
    (hst : e'.parser.state = e.parser.state) (hm : e'.mark = e.mark)
    (hin : e.parser.state = .s_header_field ∨ e.parser.state = .s_header_value) : e'.Steady where
  ok := hok.trans h.ok
  marks := by
    rw [hst, hm]
    exact h.marks
  body := by
    rw [hst, hm]
    exact h.body
  scan := fun _ => hst ▸ hin

theorem callbackData_none {S : Settings σ} {t : List UInt8} {adv : Nat} {k : Exec σ → Turn σ}
    (h : e.mark d = none) : e.callbackData S d t adv k = k e := by
  unfold callbackData
  rw [h]

theorem callbackData_some {S : Settings σ} {t : List UInt8} {adv : Nat} {k : Exec σ → Turn σ}
    {l : List UInt8} (h : e.mark d = some l) :
    e.callbackData S d t adv k =
      if (S.onData d e.parser (l ++ t) e.user).2 ≠ 0 then
        .stop ({ e with user := (S.onData d e.parser (l ++ t) e.user).1 }.setErrno
          (.HPE_CB_data d)) adv
      else
        k { e with
          user := (S.onData d e.parser (l ++ t) e.user).1
          mark := Function.update e.mark d none } := by
  unfold callbackData
  rw [h]

theorem setMark_isSome (e : Exec σ) (d : Data) : ((e.setMark d).mark d).isSome = true := by
  simp [Exec.setMark]

end Exec

def Turn.errno : Turn σ → HttpErrno
  | .next e => e.parser.http_errno
  | .stop e _ => e.parser.http_errno

def Turn.map (f : σ → τ) : Turn σ → Turn τ
  | .next e => .next (e.map f)
  | .stop e n => .stop (e.map f) n

/-- What is said of a round `a` and of the same round `b` under an image of the settings. -/
structure Sound (f : σ → τ) (a : Turn σ) (b : Turn τ) : Prop where
  image : a.errno = .HPE_OK → b = a.map f
  steady : ∀ e, a = .next e → e.Steady
  stopped : ∀ e n, a = .stop e n → e.parser.http_errno = .HPE_OK → e.parser.upgrade = true

namespace Sound

variable {S : Settings σ} {T : Settings τ} {f : σ → τ} {e : Exec σ} {b : Turn τ}
  {k : Exec σ → Turn σ} {k' : Exec τ → Turn τ}

theorem next (h : e.Steady) : Sound f (.next e) (.next (e.map f)) where
  image := fun _ => rfl
  steady := by
    rintro e' ⟨⟩
    exact h
  stopped := by
    rintro e' n ⟨⟩

theorem stop {n : Nat} (h : e.parser.http_errno = .HPE_OK → b = .stop (e.map f) n)
    (hup : e.parser.http_errno = .HPE_OK → e.parser.upgrade = true) : Sound f (.stop e n) b where
  image := h
  steady := by
    rintro e' ⟨⟩
  stopped := by
    rintro e' n ⟨⟩
    exact hup

theorem fail {err : HttpErrno} (h : err ≠ .HPE_OK) : Sound f (e.fail err) b :=
  stop (fun hok => absurd hok h) fun hok => absurd hok h

theorem ite {c : Prop} [Decidable c] {a a' : Turn σ} {b b' : Turn τ} (h : c → Sound f a b)
    (h' : ¬c → Sound f a' b') : Sound f (if c then a else a') (if c then b else b') := by
  by_cases hc : c
  · simpa only [if_pos hc] using h hc
  · simpa only [if_neg hc] using h' hc

theorem strict {c : Bool} {a : Turn σ} (h : c = false → Sound f a b) :
    Sound f (e.strictCheck c a) ((e.map f).strictCheck c b) := by
  cases c with
  | true => exact fail (by decide)
  | false => exact h rfl

theorem count {v : Nat} (h : ∀ n, Sound f (k (e.modify fun p => { p with nread := n }))
    (k' ((e.modify fun p => { p with nread := n }).map f))) :
    Sound f (e.countHeaderSize v k) ((e.map f).countHeaderSize v k') := by
  apply ite
  · exact fun _ => fail (by decide)
  · exact fun _ => h _

theorem notify (hT : S.Hom T f) {n : Notice} {adv : Nat}
    (h : ∀ e', e'.parser = e.parser → e'.mark = e.mark → e'.scan = e.scan →
      Sound f (k e') (k' (e'.map f))) :
    Sound f (e.callbackNotify S n adv k) ((e.map f).callbackNotify T n adv k') := by
  unfold Exec.callbackNotify
  by_cases hr : (S.onNotify n e.parser e.user).2 = 0
  · rw [show T.onNotify n (e.map f).parser (e.map f).user = _ from hT.notify n e.parser e.user hr]
    simp only [hr, ne_eq, not_true_eq_false, if_false]
    exact h { e with user := (S.onNotify n e.parser e.user).1 } rfl rfl rfl
  · simp only [ne_eq, hr, not_false_eq_true, if_true]
    exact stop (fun hok => by cases hok) fun hok => by cases hok

theorem headersComplete (hset : S.KeepsBody) (hT : S.Hom T f)
    (h : ∀ e', e'.parser = e.parser → e'.mark = e.mark → e'.scan = e.scan →
      Sound f (k e') (k' (e'.map f))) :
    Sound f (headersComplete S e k) (headersComplete T (e.map f) k') := by
  have hr := hset e.parser e.user
  unfold HttpParser.headersComplete
  rw [show T.onNotify .headers_complete (e.map f).parser (e.map f).user = _ from
    hT.notify .headers_complete e.parser e.user hr]
  simp only [hr, if_true]
  exact h { e with user := (S.onNotify .headers_complete e.parser e.user).1 } rfl rfl rfl

theorem data (hT : S.Hom T f) {d : Data} {t : List UInt8} {adv : Nat}
    (h : ∀ e', e'.parser = e.parser → e'.mark = Function.update e.mark d none →
      e'.scan = e.scan → Sound f (k e') (k' (e'.map f))) :
    Sound f (e.callbackData S d t adv k) ((e.map f).callbackData T d t adv k') := by
  cases hm : e.mark d with
  | none =>
      rw [Exec.callbackData_none hm, Exec.callbackData_none (e := e.map f) hm]
      refine h e rfl ?_ rfl
      rw [← hm, Function.update_eq_self]
  | some l =>
      rw [Exec.callbackData_some hm, Exec.callbackData_some (e := e.map f) hm]
      by_cases hr : (S.onData d e.parser (l ++ t) e.user).2 = 0
      · rw [show T.onData d (e.map f).parser (l ++ t) (e.map f).user = _ from
          hT.data d e.parser (l ++ t) e.user hr, if_neg (not_not.mpr hr),
          if_neg (not_not.mpr rfl)]
        exact h { e with
          user := (S.onData d e.parser (l ++ t) e.user).1
          mark := Function.update e.mark d none } rfl rfl rfl
      · rw [if_pos hr]
        exact stop (fun hok => by cases hok) fun hok => by cases hok

/-- A notify callback at the end of a case. -/
theorem notifyNext (hT : S.Hom T f) {n : Notice} (hi : e.Idle) (hs : e.parser.state.quiet = true) :
    Sound f (e.callbackNotify S n 1 .next)
      ((e.map f).callbackNotify T n 1 .next) := by
  apply notify hT
  intro e' hp hm hsc
  refine next ((hi.congr ?_ hm hsc).steady ?_)
  · rw [hp]
  · rw [hp]
    exact hs

/-- A data callback at the end of a case. -/
theorem dataNext (hT : S.Hom T f) {d : Data} (ho : e.Only (some d))
    (hs : e.parser.state.quiet = true) :
    Sound f (e.callbackData S d [] 1 .next)
      ((e.map f).callbackData T d [] 1 .next) := by
  apply data hT
  intro e' hp hm hsc
  refine next ((ho.cleared (congrArg Parser.http_errno hp) hm hsc).steady ?_)
  rw [hp]
  exact hs

end Sound

/-! ## The cases -/

section Cases

variable {S : Settings σ} {T : Settings τ} {f : σ → τ} {e : Exec σ} {ch : UInt8}

/-- A case that ends idle in a quiet state. -/
theorem Sound.rest {e' : Exec σ} (hi : e.Idle)
    (hok : e'.parser.http_errno = e.parser.http_errno) (hm : e'.mark = e.mark)
    (hsc : e'.scan = e.scan) (hs : e'.parser.state.quiet = true) :
    Sound f (.next e') (.next (e'.map f)) :=
  .next ((hi.congr hok hm hsc).steady hs)

/-- A case that ends idle at the start of a body. -/
theorem Sound.restBody {e' : Exec σ} (hi : e.Idle)
    (hok : e'.parser.http_errno = e.parser.http_errno) (hm : e'.mark = e.mark)
    (hsc : e'.scan = e.scan) (hs : e'.parser.state.inBody = true) :
    Sound f (.next e') (.next (e'.map f)) :=
  .next (((hi.mono _).congr hok hm hsc).inBody hs)

/-- A case that ends with a mark just set. -/
theorem Sound.enter {e' : Exec σ} {d : Data} (hi : e.Idle)
    (hok : e'.parser.http_errno = e.parser.http_errno) (hm : e'.mark = (e.setMark d).mark)
    (hsc : e'.scan = e.scan) (hin : e'.parser.state.element = some d) :
    Sound f (.next e') (.next (e'.map f)) := by
  have ho : e'.Only (some d) := (hi.setMark d).congr hok hm hsc
  refine .next (ho.inside ?_ hin)
  rw [hm]
  exact e.setMark_isSome d

/-- A case that ends inside a body. -/
theorem Sound.inBody {e' : Exec σ} (ho : e.Only (some .body))
    (hok : e'.parser.http_errno = e.parser.http_errno) (hm : e'.mark = e.mark)
    (hsc : e'.scan = e.scan) (hs : e'.parser.state.inBody = true) :
    Sound f (.next e') (.next (e'.map f)) :=
  .next ((ho.congr hok hm hsc).inBody hs)

theorem sound_expect {c : UInt8} {s : State} (hi : e.Idle) (hs : s.quiet = true) :
    Sound f (expect e ch c s) (expect (e.map f) ch c s) := by
  apply Sound.strict
  exact fun _ => .rest hi rfl rfl rfl hs

theorem sound_versionDigit {set : Nat → Parser → Parser} {s : State} (hi : e.Idle)
    (hset : ∀ v p, (set v p).http_errno = p.http_errno) (hs : s.quiet = true) :
    Sound f (versionDigit e ch set s) (versionDigit (e.map f) ch set s) := by
  apply Sound.ite
  · exact fun _ => .fail (by decide)
  · exact fun _ => .rest hi (hset _ _) rfl rfl hs

theorem sound_startReq (hT : S.Hom T f) (hi : e.Idle) (hs : e.parser.state = .s_start_req) :
    Sound f (startReq S e ch) (startReq T (e.map f) ch) := by
  refine .ite (fun _ => .next (hi.steady (by rw [hs]; rfl))) fun _ => ?_
  refine .ite (fun _ => .fail (by decide)) fun _ => ?_
  cases methodOfFirst ch with
  | none => exact .fail (by decide)
  | some m => exact .notifyNext hT (hi.congr rfl rfl rfl) rfl

theorem sound_startReqOrRes (hT : S.Hom T f) (hi : e.Idle)
    (hs : e.parser.state = .s_start_req_or_res) :
    Sound f (startReqOrRes S e ch) (startReqOrRes T (e.map f) ch) := by
  refine .ite (fun _ => .next (hi.steady (by rw [hs]; rfl))) fun _ => ?_
  apply Sound.ite
  · exact fun _ => .notifyNext hT (hi.congr rfl rfl rfl) rfl
  · exact fun _ => sound_startReq hT (hi.congr rfl rfl rfl) rfl

theorem sound_resOrRespH (hi : e.Idle) : Sound f (resOrRespH e ch) (resOrRespH (e.map f) ch) := by
  refine .ite (fun _ => .rest hi rfl rfl rfl rfl) fun _ => ?_
  apply Sound.ite
  · exact fun _ => .fail (by decide)
  · exact fun _ => .rest hi rfl rfl rfl rfl

theorem sound_startRes (hT : S.Hom T f) (hi : e.Idle) (hs : e.parser.state = .s_start_res) :
    Sound f (startRes S e ch) (startRes T (e.map f) ch) := by
  refine .ite (fun _ => .next (hi.steady (by rw [hs]; rfl))) fun _ => ?_
  apply Sound.ite
  · exact fun _ => .notifyNext hT (hi.congr rfl rfl rfl) rfl
  · exact fun _ => .fail (by decide)

theorem sound_resFirstStatusCode (hi : e.Idle) (hs : e.parser.state = .s_res_first_status_code) :
    Sound f (resFirstStatusCode e ch) (resFirstStatusCode (e.map f) ch) := by
  apply Sound.ite
  · intro _
    apply Sound.ite
    · exact fun _ => .next (hi.steady (by rw [hs]; rfl))
    · exact fun _ => .fail (by decide)
  · exact fun _ => .rest hi rfl rfl rfl rfl

theorem sound_resStatus (hT : S.Hom T f) (ho : e.Only (some .status))
    (hm : (e.mark .status).isSome = true)
    (hs : e.parser.state = .s_res_status) :
    Sound f (resStatus S e ch) (resStatus T (e.map f) ch) := by
  refine .ite (fun _ => .dataNext hT (ho.goto _) rfl) fun _ => ?_
  apply Sound.ite
  · exact fun _ => .dataNext hT (ho.goto _) rfl
  · exact fun _ => .next (ho.inside hm (by rw [hs]; rfl))

theorem sound_resStatusStart (hT : S.Hom T f) (hi : e.Idle) :
    Sound f (resStatusStart S e ch) (resStatusStart T (e.map f) ch) := by
  have ho := ((hi.setMark .status).goto .s_res_status).modify
    (f := fun p => { p with index := 0 }) rfl
  have hm := e.setMark_isSome .status
  apply Sound.ite
  · exact fun _ => sound_resStatus hT ho hm rfl
  · exact fun _ => .next (ho.inside hm rfl)

theorem sound_resStatusCode (hT : S.Hom T f) (hi : e.Idle)
    (hs : e.parser.state = .s_res_status_code) :
    Sound f (resStatusCode S e ch) (resStatusCode T (e.map f) ch) := by
  apply Sound.ite
  · intro _
    refine .ite (fun _ => .rest hi rfl rfl rfl rfl) fun _ => ?_
    apply Sound.ite
    · exact fun _ => sound_resStatusStart hT (hi.goto _)
    · exact fun _ => .fail (by decide)
  · intro _
    apply Sound.ite
    · exact fun _ => .fail (by decide)
    · refine fun _ => .rest hi rfl rfl rfl ?_
      show e.parser.state.quiet = true
      rw [hs]
      rfl

theorem sound_reqMethod (hi : e.Idle) (hs : e.parser.state = .s_req_method) :
    Sound f (reqMethod e ch) (reqMethod (e.map f) ch) := by
  have hquiet : e.parser.state.quiet = true := by
    rw [hs]
    rfl
  refine .ite (fun _ => .fail (by decide)) fun _ => ?_
  refine .ite (fun _ => .rest hi rfl rfl rfl rfl) fun _ => ?_
  refine .ite (fun _ => .rest hi rfl rfl rfl hquiet) fun _ => ?_
  apply Sound.ite
  · intro _
    rw [Exec.parser_map]
    cases methodSwitch ch e.parser.method e.parser.index with
    | none => exact .fail (by decide)
    | some m => exact .rest hi rfl rfl rfl hquiet
  · exact fun _ => .fail (by decide)

theorem parseUrlChar_element {s : State} (h : parseUrlChar s ch ≠ .s_dead) :
    (parseUrlChar s ch).element = some .url := by
  revert h
  unfold parseUrlChar parseUrlChar.serverChar
  split
  · exact fun h => absurd rfl h
  · split <;> repeat' split
    all_goals first | exact fun h => absurd rfl h | exact fun _ => rfl

theorem sound_urlChar (ho : e.Only (some .url)) (hm : (e.mark .url).isSome = true) :
    Sound f (urlChar e ch) (urlChar (e.map f) ch) := by
  apply Sound.ite
  · exact fun _ => .fail (by decide)
  · exact fun hs => .next ((ho.goto _).inside hm (parseUrlChar_element hs))

theorem sound_reqSpacesBeforeUrl (hi : e.Idle) (hs : e.parser.state = .s_req_spaces_before_url) :
    Sound f (reqSpacesBeforeUrl e ch) (reqSpacesBeforeUrl (e.map f) ch) := by
  refine .ite (fun _ => .next (hi.steady (by rw [hs]; rfl))) fun _ => ?_
  have ho := hi.setMark .url
  have hm := e.setMark_isSome .url
  apply Sound.ite
  · exact fun _ => sound_urlChar (ho.goto _) hm
  · exact fun _ => sound_urlChar ho hm

theorem sound_reqSchema (ho : e.Only (some .url)) (hm : (e.mark .url).isSome = true) :
    Sound f (reqSchema e ch) (reqSchema (e.map f) ch) := by
  apply Sound.ite
  · exact fun _ => .fail (by decide)
  · exact fun _ => sound_urlChar ho hm

theorem sound_reqUrl (hT : S.Hom T f) (ho : e.Only (some .url)) (hm : (e.mark .url).isSome = true) :
    Sound f (reqUrl S e ch) (reqUrl T (e.map f) ch) := by
  refine .ite (fun _ => .dataNext hT (ho.goto _) rfl) fun _ => ?_
  apply Sound.ite
  · intro _
    refine .dataNext hT (ho.congr rfl rfl rfl) ?_
    show State.quiet (if ch = CR then _ else _) = true
    split <;> rfl
  · exact fun _ => sound_urlChar ho hm

theorem sound_reqHttpStart (hi : e.Idle) (hs : e.parser.state = .s_req_http_start) :
    Sound f (reqHttpStart e ch) (reqHttpStart (e.map f) ch) := by
  refine .ite (fun _ => .next (hi.steady (by rw [hs]; rfl))) fun _ => ?_
  refine .ite (fun _ => .rest hi rfl rfl rfl rfl) fun _ => ?_
  apply Sound.ite
  · exact fun _ => .rest hi rfl rfl rfl rfl
  · exact fun _ => .fail (by decide)

theorem sound_reqHttpEnd (hi : e.Idle) : Sound f (reqHttpEnd e ch) (reqHttpEnd (e.map f) ch) := by
  refine .ite (fun _ => .rest hi rfl rfl rfl rfl) fun _ => ?_
  apply Sound.ite
  · exact fun _ => .rest hi rfl rfl rfl rfl
  · exact fun _ => .fail (by decide)

theorem Parser.newMessage_quiet (p : Parser) : p.newMessage.quiet = true := by
  unfold Parser.newMessage
  split
  · split <;> rfl
  · rfl

theorem sound_messageNext (hT : S.Hom T f) (hi : e.Idle) :
    Sound f (messageComplete S e .next) (messageComplete T (e.map f) .next) :=
  .notifyNext hT (hi.goto _) (Parser.newMessage_quiet _)

theorem sound_messageDone (hT : S.Hom T f) (hi : e.Idle) :
    Sound f (messageDone S e) (messageDone T (e.map f)) := by
  unfold messageDone messageComplete
  apply Sound.notify hT
  intro e' hp hm hsc
  apply Sound.ite
  · exact fun hup => .stop (fun _ => rfl) fun _ => hup
  · refine fun _ => .rest hi ?_ hm hsc ?_
    · rw [hp]
      rfl
    · rw [hp]
      exact Parser.newMessage_quiet _

theorem sound_headersDone (hT : S.Hom T f) (hi : e.Idle) :
    Sound f (headersDone S e ch) (headersDone T (e.map f) ch) := by
  apply Sound.strict
  intro _
  have hi' : (e.modify fun p => { p with nread := 0 }).Idle := hi.congr rfl rfl rfl
  apply Sound.ite
  · intro hup
    unfold messageComplete
    apply Sound.notify hT
    intro e' hp hm hsc
    refine .stop (fun _ => rfl) fun _ => ?_
    rw [hp]
    exact (Bool.and_eq_true_iff.mp hup).1
  · intro _
    refine .ite (fun _ => sound_messageNext hT hi') fun _ => ?_
    refine .ite (fun _ => .rest hi rfl rfl rfl rfl) fun _ => ?_
    refine .ite (fun _ => sound_messageNext hT hi') fun _ => ?_
    refine .ite (fun _ => .restBody hi rfl rfl rfl rfl) fun _ => ?_
    apply Sound.ite
    · exact fun _ => sound_messageNext hT hi'
    · exact fun _ => .restBody hi rfl rfl rfl rfl

theorem sound_headersAlmostDone (hT : S.Hom T f) (hset : S.KeepsBody) (hi : e.Idle) :
    Sound f (headersAlmostDone S e ch) (headersAlmostDone T (e.map f) ch) := by
  apply Sound.strict
  intro _
  apply Sound.ite
  · intro _
    apply Sound.notify hT
    intro e' hp hm hsc
    refine sound_messageDone hT (hi.congr ?_ hm hsc)
    rw [hp]
    rfl
  · intro _
    refine .ite (fun _ => .fail (by decide)) fun _ => ?_
    apply Sound.headersComplete hset hT
    intro e' hp hm hsc
    refine sound_headersDone hT (hi.congr ?_ hm hsc)
    rw [hp]
    rfl

theorem sound_headerFieldStart (hT : S.Hom T f) (hset : S.KeepsBody) (hi : e.Idle) :
    Sound f (headerFieldStart S e ch) (headerFieldStart T (e.map f) ch) := by
  refine .ite (fun _ => .rest hi rfl rfl rfl rfl) fun _ => ?_
  refine .ite (fun _ => sound_headersAlmostDone hT hset (hi.goto _)) fun _ => ?_
  apply Sound.ite
  · exact fun _ => .fail (by decide)
  · exact fun _ => .enter hi rfl rfl rfl rfl

/-- What a character of a header leaves as it is. -/
structure SameLine (p p' : Parser) : Prop where
  errno : p'.http_errno = p.http_errno
  state : p'.state = p.state
  type : p'.type = p.type

theorem matchWord_keeps (w : String) (c : UInt8) (own full other : HeaderState) (p : Parser) :
    SameLine p (matchWord w c own full other p) := by
  unfold matchWord
  simp only
  split
  · exact ⟨rfl, rfl, rfl⟩
  · split <;> exact ⟨rfl, rfl, rfl⟩

theorem fieldChar_keeps (ch c : UInt8) (p : Parser) : SameLine p (fieldChar ch c p) := by
  unfold fieldChar
  cases p.header_state <;> simp only <;> first
    | exact matchWord_keeps _ _ _ _ _ p
    | exact ⟨rfl, rfl, rfl⟩
    | skip
  all_goals split <;> exact ⟨rfl, rfl, rfl⟩

theorem sound_headerField (hT : S.Hom T f) (h : e.Steady) (hs : e.parser.state = .s_header_field) :
    Sound f (headerField S e ch) (headerField T (e.map f) ch) := by
  have hkeeps := fieldChar_keeps ch (token ch) e.parser
  apply Sound.ite
  · exact fun _ => .next (h.scanning hkeeps.errno hkeeps.state rfl (.inl hs))
  · intro _
    have ho := h.only (d := .header_field) (by rw [hs]; rfl)
    apply Sound.count
    intro n
    apply Sound.ite
    · exact fun _ => .dataNext hT (ho.congr rfl rfl rfl) rfl
    · exact fun _ => .fail (by decide)

theorem sound_headerValueStart (hi : e.Idle) :
    Sound f (headerValueStart e ch) (headerValueStart (e.map f) ch) := by
  obtain ⟨⟨type, flags, state, header_state⟩, u, m, sc⟩ := e
  cases header_state
  case h_content_length =>
    refine .ite (fun _ => .fail (by decide)) fun _ => ?_
    apply Sound.ite
    · exact fun _ => .fail (by decide)
    · exact fun _ => .enter hi rfl rfl rfl rfl
  all_goals exact .enter hi rfl rfl rfl rfl

theorem sound_headerValueDiscardWs (hi : e.Idle)
    (hs : e.parser.state = .s_header_value_discard_ws) :
    Sound f (headerValueDiscardWs e ch) (headerValueDiscardWs (e.map f) ch) := by
  refine .ite (fun _ => .next (hi.steady (by rw [hs]; rfl))) fun _ => ?_
  refine .ite (fun _ => .rest hi rfl rfl rfl rfl) fun _ => ?_
  apply Sound.ite
  · exact fun _ => .rest hi rfl rfl rfl rfl
  · exact fun _ => sound_headerValueStart hi

theorem sound_headerAlmostDone (hi : e.Idle) :
    Sound f (headerAlmostDone e ch) (headerAlmostDone (e.map f) ch) := by
  apply Sound.ite
  · exact fun _ => .fail (by decide)
  · exact fun _ => .rest hi rfl rfl rfl rfl

/-- What a character of a value does to the parser, or the error it is. -/
def Keeps (p : Parser) : Except HttpErrno Parser → Prop
  | .ok p' => SameLine p p'
  | .error err => err ≠ .HPE_OK

theorem contentLengthNum_keeps (ch : UInt8) (p : Parser) : Keeps p (contentLengthNum ch p) := by
  unfold contentLengthNum
  split
  · exact ⟨rfl, rfl, rfl⟩
  · split
    · exact fun h => by cases h
    · split
      · exact fun h => by cases h
      · exact ⟨rfl, rfl, rfl⟩

theorem valueChar_keeps (ch c : UInt8) (p : Parser) : Keeps p (valueChar ch c p) := by
  unfold valueChar valueChar.nextToken
  cases p.header_state <;> simp only
  all_goals first
    | exact ⟨rfl, rfl, rfl⟩
    | exact contentLengthNum_keeps ch p
    | exact matchWord_keeps _ c _ _ _ p
    | skip
  all_goals repeat' split
  all_goals first
    | exact ⟨rfl, rfl, rfl⟩
    | exact contentLengthNum_keeps ch p
    | exact fun h => by cases h

theorem sound_headerValue (hT : S.Hom T f) (h : e.Steady) (hs : e.parser.state = .s_header_value) :
    Sound f (headerValue S e ch) (headerValue T (e.map f) ch) := by
  have ho := h.only (d := .header_value) (by rw [hs]; rfl)
  apply Sound.ite
  · intro _
    apply Sound.data hT
    intro e' hp hm hsc
    have hi : e'.Idle := (ho.goto .s_header_almost_done).cleared
      (congrArg Parser.http_errno hp) hm hsc
    apply Sound.count
    intro n
    refine .rest hi rfl rfl rfl ?_
    show e'.parser.state.quiet = true
    rw [hp]
    rfl
  · intro _
    apply Sound.ite
    · intro _
      apply Sound.count
      intro n
      apply Sound.data hT
      intro e' hp hm hsc
      exact sound_headerAlmostDone (ho.cleared (by rw [hp]; rfl) hm hsc)
    · intro _
      refine .ite (fun _ => .fail (by decide)) fun _ => ?_
      have hk := valueChar_keeps ch (lower ch) e.parser
      cases hv : valueChar ch (lower ch) e.parser with
      | error err =>
          rw [hv] at hk
          simp only [Exec.parser_map, hv]
          exact .fail hk
      | ok p =>
          rw [hv] at hk
          simp only [Exec.parser_map, hv]
          exact .next (h.scanning hk.errno hk.state rfl (.inr hs))

theorem Parser.finishHeader_errno (p : Parser) : p.finishHeader.http_errno = p.http_errno := by
  unfold Parser.finishHeader
  split <;> rfl

theorem sound_headerValueLws (hT : S.Hom T f) (hset : S.KeepsBody) (hi : e.Idle) :
    Sound f (headerValueLws S e ch) (headerValueLws T (e.map f) ch) := by
  apply Sound.ite
  · intro _
    apply Sound.ite
    · exact fun _ => sound_headerValueStart (hi.congr rfl rfl rfl)
    · exact fun _ => sound_headerValueStart (hi.goto _)
  · exact fun _ =>
      sound_headerFieldStart hT hset ((hi.modify (Parser.finishHeader_errno _)).goto _)

theorem sound_headerValueDiscardLws (hT : S.Hom T f) (hset : S.KeepsBody) (hi : e.Idle) :
    Sound f (headerValueDiscardLws S e ch) (headerValueDiscardLws T (e.map f) ch) := by
  refine .ite (fun _ => .rest hi rfl rfl rfl rfl) fun _ => ?_
  refine .ite (fun _ => .fail (by decide)) fun _ => ?_
  have ho := ((hi.modify (Parser.finishHeader_errno _)).setMark .header_value).goto
    .s_header_field_start
  apply Sound.data hT
  intro e' hp hm hsc
  exact sound_headerFieldStart hT hset (ho.cleared (congrArg Parser.http_errno hp) hm hsc)

theorem sound_bodyIdentity (hT : S.Hom T f) (ho : e.Only (some .body))
    (hs : e.parser.state = .s_body_identity) :
    Sound f (bodyIdentity S e ch) (bodyIdentity T (e.map f) ch) := by
  apply Sound.ite
  · intro _
    apply Sound.data hT
    intro e' hp hm hsc
    exact sound_messageDone hT (ho.mark_again.cleared (by rw [hp]; rfl) hm hsc)
  · intro _
    refine .inBody ho.mark_again rfl rfl rfl ?_
    show e.parser.state.inBody = true
    rw [hs]
    rfl

theorem sound_chunkSizeStart (hi : e.Idle) :
    Sound f (chunkSizeStart e ch) (chunkSizeStart (e.map f) ch) := by
  unfold chunkSizeStart
  cases unhex ch with
  | none => exact .fail (by decide)
  | some v => exact .rest hi rfl rfl rfl rfl

theorem sound_chunkSize (hi : e.Idle) (hs : e.parser.state = .s_chunk_size) :
    Sound f (chunkSize e ch) (chunkSize (e.map f) ch) := by
  refine .ite (fun _ => .rest hi rfl rfl rfl rfl) fun _ => ?_
  cases unhex ch with
  | none =>
      apply Sound.ite
      · exact fun _ => .rest hi rfl rfl rfl rfl
      · exact fun _ => .fail (by decide)
  | some v =>
      apply Sound.ite
      · exact fun _ => .fail (by decide)
      · refine fun _ => .rest hi rfl rfl rfl ?_
        show e.parser.state.quiet = true
        rw [hs]
        rfl

theorem sound_chunkSizeAlmostDone (hT : S.Hom T f) (hi : e.Idle) :
    Sound f (chunkSizeAlmostDone S e ch) (chunkSizeAlmostDone T (e.map f) ch) := by
  apply Sound.strict
  intro _
  apply Sound.ite
  · exact fun _ => .notifyNext hT (hi.congr rfl rfl rfl) rfl
  · intro _
    apply Sound.notify hT
    intro e' hp hm hsc
    refine .restBody hi ?_ hm hsc ?_
    · rw [hp]
      rfl
    · rw [hp]
      rfl

theorem sound_chunkData (ho : e.Only (some .body)) (hs : e.parser.state = .s_chunk_data) :
    Sound f (chunkData e) (chunkData (e.map f)) := by
  apply Sound.ite
  · exact fun _ => .inBody ho.mark_again rfl rfl rfl rfl
  · refine fun _ => .inBody ho.mark_again rfl rfl rfl ?_
    show e.parser.state.inBody = true
    rw [hs]
    rfl

theorem sound_chunkDataAlmostDone (hT : S.Hom T f) (ho : e.Only (some .body)) :
    Sound f (chunkDataAlmostDone S e ch) (chunkDataAlmostDone T (e.map f) ch) := by
  apply Sound.strict
  exact fun _ => .dataNext hT (ho.goto _) rfl

theorem sound_chunkDataDone (hT : S.Hom T f) (hi : e.Idle) :
    Sound f (chunkDataDone S e ch) (chunkDataDone T (e.map f) ch) := by
  apply Sound.strict
  exact fun _ => .notifyNext hT (hi.congr rfl rfl rfl) rfl

theorem Exec.Steady.url (h : e.Steady) (hs : e.parser.state.element = some .url) :
    e.Only (some .url) ∧ (e.mark .url).isSome = true := by
  have hscan : e.scan = none := by
    apply h.scan_eq_none
    · intro hst
      rw [hst] at hs
      cases hs
    · intro hst
      rw [hst] at hs
      cases hs
  exact ⟨(h.only hs).congr rfl rfl hscan, (h.marks .url nofun).mpr hs⟩

theorem Exec.Steady.status (h : e.Steady) (hs : e.parser.state = .s_res_status) :
    e.Only (some .status) ∧ (e.mark .status).isSome = true := by
  have hel : e.parser.state.element = some .status := by
    rw [hs]
    rfl
  have hscan : e.scan = none := h.scan_eq_none (by simp [hs]) (by simp [hs])
  exact ⟨(h.only hel).congr rfl rfl hscan, (h.marks .status nofun).mpr hel⟩

theorem sound_switch (hT : S.Hom T f) (hset : S.KeepsBody) (h : e.Steady) :
    Sound f (switch S e ch) (switch T (e.map f) ch) := by
  have hidle : e.parser.state.quiet = true → e.Idle := h.idle
  have hurl : e.parser.state.element = some .url →
      e.Only (some .url) ∧ (e.mark .url).isSome = true := h.url
  have hbody : e.parser.state.inBody = true → e.Only (some .body) := h.onlyBody
  have hsame : e.parser.state.quiet = true → Sound f (.next e) (.next (e.map f)) :=
    fun hs => .next ((h.idle hs).steady hs)
  unfold switch
  -- one lemma for each state of the parser
  cases hst : e.parser.state <;> rw [hst] at hidle hurl hbody hsame <;>
    simp only [Exec.parser_map, hst]
  case s_dead => exact .ite (fun _ => hsame rfl) fun _ => .fail (by decide)
  case s_start_req_or_res => exact sound_startReqOrRes hT (hidle rfl) hst
  case s_res_or_resp_H => exact sound_resOrRespH (hidle rfl)
  case s_start_res => exact sound_startRes hT (hidle rfl) hst
  case s_res_H | s_res_HT | s_res_HTT | s_res_HTTP | s_res_line_almost_done | s_req_http_H |
      s_req_http_HT | s_req_http_HTT | s_req_http_HTTP | s_req_http_I | s_req_http_IC |
      s_header_value_discard_ws_almost_done =>
    exact sound_expect (hidle rfl) rfl
  case s_res_http_major | s_res_http_minor | s_req_http_major | s_req_http_minor =>
    exact sound_versionDigit (hidle rfl) (fun _ _ => rfl) rfl
  case s_res_http_dot | s_res_http_end | s_req_http_dot | s_req_line_almost_done =>
    exact .ite (fun _ => .fail (by decide)) fun _ => .rest (hidle rfl) rfl rfl rfl rfl
  case s_res_first_status_code => exact sound_resFirstStatusCode (hidle rfl) hst
  case s_res_status_code => exact sound_resStatusCode hT (hidle rfl) hst
  case s_res_status_start => exact sound_resStatusStart hT (hidle rfl)
  case s_res_status => exact sound_resStatus hT (h.status hst).1 (h.status hst).2 hst
  case s_start_req => exact sound_startReq hT (hidle rfl) hst
  case s_req_method => exact sound_reqMethod (hidle rfl) hst
  case s_req_spaces_before_url => exact sound_reqSpacesBeforeUrl (hidle rfl) hst
  case s_req_schema | s_req_schema_slash | s_req_schema_slash_slash | s_req_server_start =>
    exact sound_reqSchema (hurl rfl).1 (hurl rfl).2
  case s_req_server | s_req_server_with_at | s_req_path | s_req_query_string_start |
      s_req_query_string | s_req_fragment_start | s_req_fragment =>
    exact sound_reqUrl hT (hurl rfl).1 (hurl rfl).2
  case s_req_http_start => exact sound_reqHttpStart (hidle rfl) hst
  case s_req_http_end => exact sound_reqHttpEnd (hidle rfl)
  case s_header_field_start => exact sound_headerFieldStart hT hset (hidle rfl)
  case s_header_field => exact sound_headerField hT h hst
  case s_header_value_discard_ws => exact sound_headerValueDiscardWs (hidle rfl) hst
  case s_header_value_discard_lws => exact sound_headerValueDiscardLws hT hset (hidle rfl)
  case s_header_value_start => exact sound_headerValueStart (hidle rfl)
  case s_header_value => exact sound_headerValue hT h hst
  case s_header_value_lws => exact sound_headerValueLws hT hset (hidle rfl)
  case s_header_almost_done => exact sound_headerAlmostDone (hidle rfl)
  case s_headers_almost_done => exact sound_headersAlmostDone hT hset (hidle rfl)
  case s_headers_done => exact sound_headersDone hT (hidle rfl)
  case s_body_identity => exact sound_bodyIdentity hT (hbody rfl) hst
  case s_body_identity_eof =>
    exact .inBody (hbody rfl).mark_again rfl rfl rfl (by rw [Exec.parser_setMark, hst]; rfl)
  case s_message_done => exact sound_messageDone hT (hidle rfl)
  case s_chunk_size_start => exact sound_chunkSizeStart (hidle rfl)
  case s_chunk_size => exact sound_chunkSize (hidle rfl) hst
  case s_chunk_parameters =>
    exact .ite (fun _ => .rest (hidle rfl) rfl rfl rfl rfl) fun _ => hsame rfl
  case s_chunk_size_almost_done => exact sound_chunkSizeAlmostDone hT (hidle rfl)
  case s_chunk_data => exact sound_chunkData (hbody rfl) hst
  case s_chunk_data_almost_done => exact sound_chunkDataAlmostDone hT (hbody rfl)
  case s_chunk_data_done => exact sound_chunkDataDone hT (hidle rfl)

end Cases

/-- One round keeps `Steady`, and without an error is what it is under `bare`. -/
theorem turn_sound {S : Settings σ} {T : Settings τ} {f : σ → τ} {e : Exec σ}
    (hT : S.Hom T f) (hset : S.KeepsBody)
    (h : e.Steady) (ch : UInt8) : Sound f (turn S e ch) (turn T (e.map f) ch) := by
  unfold turn
  cases hsc : e.scan with
  | some k =>
      simp only [Exec.map_scan, hsc]
      exact sound_switch hT hset (h.scanning rfl rfl rfl (h.scan (by rw [hsc]; rfl)))
  | none =>
      simp only [Exec.map_scan, hsc]
      apply Sound.ite
      · intro _
        apply Sound.count
        intro n
        exact sound_switch hT hset ⟨h.ok, h.marks, h.body, h.scan⟩
      · exact fun _ => sound_switch hT hset h

theorem Exec.Steady.advance {e : Exec σ} (h : e.Steady) (ch : UInt8) : (e.advance ch).Steady where
  ok := h.ok
  marks := by
    intro d hd
    rw [show (e.advance ch).mark d = (e.mark d).map (· ++ [ch]) from rfl, Option.isSome_map]
    exact h.marks d hd
  body := by
    rw [show (e.advance ch).mark .body = (e.mark .body).map (· ++ [ch]) from rfl, Option.isSome_map]
    exact h.body
  scan := h.scan

theorem Exec.steady_start {p : Parser} (hp : p.http_errno = .HPE_OK) (u : σ) :
    (Exec.start p u).Steady where
  ok := hp
  marks := by
    intro d _
    simp only [Exec.start]
    split <;> simp_all
  body := by simp [Exec.start, State.element_ne_body]
  scan := by simp [Exec.start]

end Gxh.HttpParser
