import Gxh.HttpParser.Segments

/-!
# Reading a stretch of bytes

`Reads settings e xs c P` says what a call of `http_parser_execute` makes of the bytes `xs` when
it gets to them with the locals `e`: it accepts them exactly when `c` holds, and is then left with
locals that satisfy `P`; if `c` does not hold the call ends with an error, whatever follows.
Stretches are put together with `Reads.append`, so that the condition under which a whole message
is accepted is the conjunction of those of its parts.
-/

namespace Gxh.HttpParser

variable {σ : Type} {settings : Settings σ} {e e' : Exec σ} {ch : UInt8}

/-- The outcome of a call, `none` for an error. -/
def Result.accepted (r : Result σ) : Option (Result σ) :=
  if r.parser.http_errno = .HPE_OK then some r else none

/-- The rest of a call. -/
def parse (settings : Settings σ) (e : Exec σ) (pos : Nat) (xs : List UInt8) : Option (Result σ) :=
  (run settings e pos xs).accepted

theorem parse_next {e' : Exec σ} (h : turn settings e ch = .next e') (pos : Nat)
    (rest : List UInt8) :
    parse settings e pos (ch :: rest) = parse settings (e'.advance ch) (pos + 1) rest := by
  unfold parse
  rw [run, h]

theorem parse_fail {err : HttpErrno} (h : turn settings e ch = e'.fail err) (herr : err ≠ .HPE_OK)
    (pos : Nat) (rest : List UInt8) : parse settings e pos (ch :: rest) = none := by
  unfold parse
  rw [run, h]
  exact if_neg herr

structure Reads (settings : Settings σ) (e : Exec σ) (xs : List UInt8) (c : Prop)
    (P : Exec σ → Prop) : Prop where
  accepts : c → ∃ e', P e' ∧ ∀ pos rest,
    parse settings e pos (xs ++ rest) = parse settings e' (pos + xs.length) rest
  rejects : ¬c → ∀ pos rest, parse settings e pos (xs ++ rest) = none

namespace Reads

variable {xs ys : List UInt8} {c d : Prop} {P Q : Exec σ → Prop}

theorem nil (h : P e) : Reads settings e [] True P where
  accepts := fun _ => ⟨e, h, fun _ _ => rfl⟩
  rejects := fun hc => absurd trivial hc

theorem next (h : turn settings e ch = .next e') (hP : P (e'.advance ch)) :
    Reads settings e [ch] True P where
  accepts := fun _ => ⟨_, hP, fun pos rest => parse_next h pos rest⟩
  rejects := fun hc => absurd trivial hc

theorem fail {err : HttpErrno} (h : turn settings e ch = e'.fail err) (herr : err ≠ .HPE_OK) :
    Reads settings e [ch] False P where
  accepts := False.elim
  rejects := fun _ pos rest => parse_fail h herr pos rest

/-- An equivalent condition and a weaker description of what is left. -/
theorem conseq (h : Reads settings e xs c P) (hc : c ↔ d)
    (hP : c → ∀ e', P e' → Q e') :
    Reads settings e xs d Q where
  accepts := fun hd => by
    obtain ⟨e', he', hrun⟩ := h.accepts (hc.mpr hd)
    exact ⟨e', hP (hc.mpr hd) e' he', hrun⟩
  rejects := fun hd => h.rejects (mt hc.mp hd)

theorem append (h : Reads settings e xs c P)
    (h' : c → ∀ e', P e' → Reads settings e' ys d Q) :
    Reads settings e (xs ++ ys) (c ∧ d) Q where
  accepts := by
    rintro ⟨hc, hd⟩
    obtain ⟨e₁, he₁, hrun⟩ := h.accepts hc
    obtain ⟨e₂, he₂, hrun'⟩ := (h' hc e₁ he₁).accepts hd
    refine ⟨e₂, he₂, fun pos rest => ?_⟩
    rw [List.append_assoc, hrun, hrun', List.length_append, Nat.add_assoc]
  rejects := by
    intro hnot pos rest
    rw [List.append_assoc]
    by_cases hc : c
    · obtain ⟨e₁, he₁, hrun⟩ := h.accepts hc
      rw [hrun]
      exact (h' hc e₁ he₁).rejects (fun hd => hnot ⟨hc, hd⟩) _ _
    · exact h.rejects hc _ _

/-- Two stretches under a condition that sums theirs up. -/
theorem seq {r : Prop} (h : Reads settings e xs c P)
    (h' : c → ∀ e', P e' → Reads settings e' ys d Q) (hr : c ∧ d ↔ r) :
    Reads settings e (xs ++ ys) r Q :=
  (h.append h').conseq hr fun _ _ hq => hq

/-- Nothing behind a stretch is looked at once it is rejected. -/
theorem stop (h : Reads settings e xs False P) (ys : List UInt8) :
    Reads settings e (xs ++ ys) False Q where
  accepts := False.elim
  rejects := fun _ pos rest => by
    rw [List.append_assoc]
    exact h.rejects not_false _ _

theorem of_iff {p : Prop} (hc : p → Reads settings e xs True P)
    (hd : ¬p → Reads settings e xs False P) : Reads settings e xs p P where
  accepts := fun h => (hc h).accepts trivial
  rejects := fun h => (hd h).rejects not_false

end Reads

/-! ## Locals with one mark or none -/

/-- Between two elements: nothing is marked. -/
def Exec.between (p : Parser) (u : σ) : Exec σ := ⟨p, u, fun _ => none, none⟩

/-- Inside element `d`, of which these bytes have been read. -/
def Exec.inside (p : Parser) (u : σ) (d : Data) (l : List UInt8) (scan : Option Nat) : Exec σ :=
  ⟨p, u, fun x => if x = d then some l else none, scan⟩

variable {p : Parser} {u : σ} {d : Data} {l : List UInt8} {scan : Option Nat}

@[simp] theorem Exec.inside_advance (ch : UInt8) :
    (Exec.inside p u d l scan).advance ch = Exec.inside p u d (l ++ [ch]) scan := by
  unfold Exec.inside Exec.advance
  congr 1
  funext x
  by_cases hx : x = d
  · simp [hx]
  · simp [hx]

theorem Exec.setMark_between (p : Parser) (u : σ) (d : Data) :
    (Exec.between p u).setMark d = Exec.inside p u d [] none := by
  unfold Exec.setMark Exec.between Exec.inside
  congr 1
  funext x
  by_cases hx : x = d
  · simp [hx]
  · simp [hx]

/-- The callback of the element the locals are in. -/
theorem callbackData_inside (p : Parser) (u : σ) (d : Data) (l tail : List UInt8) (adv : Nat)
    (k : Exec σ → Turn σ) (hok : (settings.onData d p (l ++ tail) u).2 = 0) :
    (Exec.inside p u d l none).callbackData settings d tail adv k =
      k (.between p (settings.onData d p (l ++ tail) u).1) := by
  have hmark : (Exec.inside p u d l none).mark d = some l := if_pos rfl
  refine (Exec.callbackData_some hmark).trans ((if_neg (not_not.mpr hok)).trans ?_)
  congr 1
  unfold Exec.inside Exec.between
  congr 1
  funext x
  by_cases hx : x = d
  · simp [hx]
  · simp [hx]

/-! ## Header bytes are counted -/

/-- A byte outside the loops of names and values. -/
theorem turn_counted (hs : p.state.parsingHeader = true) (hn : p.nread < maxHeaderSize) (u : σ)
    (mark : Data → Option (List UInt8)) (ch : UInt8) :
    turn settings ⟨p, u, mark, none⟩ ch =
      switch settings ⟨{ p with nread := p.nread + 1 }, u, mark, none⟩ ch := by
  have hsmall : (p.nread + 1) % 2 ^ 32 = p.nread + 1 :=
    Nat.mod_eq_of_lt (by unfold maxHeaderSize at hn; omega)
  unfold turn
  simp only [hs, if_true, Exec.countHeaderSize, Exec.modify, hsmall]
  rw [if_neg (by omega)]

theorem turn_overflow (hs : p.state.parsingHeader = true) (hn : p.nread = maxHeaderSize) (u : σ)
    (mark : Data → Option (List UInt8)) (ch : UInt8) :
    turn settings ⟨p, u, mark, none⟩ ch =
      Exec.fail ⟨{ p with nread := maxHeaderSize + 1 }, u, mark, none⟩ .HPE_HEADER_OVERFLOW := by
  have hsmall : (p.nread + 1) % 2 ^ 32 = maxHeaderSize + 1 := by rw [hn]; decide
  unfold turn
  simp only [hs, if_true, Exec.countHeaderSize, Exec.modify, hsmall]
  rw [if_pos (by omega)]

/-- A byte of the head: it is accepted if there is room for it and the `switch` goes on. -/
theorem Reads.counted {c : Prop} {P : Exec σ → Prop} {mark : Data → Option (List UInt8)}
    (hs : p.state.parsingHeader = true) (hn : p.nread ≤ maxHeaderSize)
    (hnext : c → ∃ e', switch settings ⟨{ p with nread := p.nread + 1 }, u, mark, none⟩ ch =
      .next e' ∧ P (e'.advance ch))
    (hfail : ¬c → ∃ e' err, err ≠ .HPE_OK ∧
      switch settings ⟨{ p with nread := p.nread + 1 }, u, mark, none⟩ ch = Exec.fail e' err) :
    Reads settings ⟨p, u, mark, none⟩ [ch] (c ∧ p.nread + 1 ≤ maxHeaderSize) P := by
  refine .of_iff ?_ ?_
  · rintro ⟨hc, hroom⟩
    obtain ⟨e', hturn, hP⟩ := hnext hc
    exact .next ((turn_counted hs hroom u mark ch).trans hturn) hP
  · intro hnot
    by_cases hroom : p.nread + 1 ≤ maxHeaderSize
    · obtain ⟨e', err, herr, hturn⟩ := hfail fun hc => hnot ⟨hc, hroom⟩
      exact .fail ((turn_counted hs hroom u mark ch).trans hturn) herr
    · exact .fail (turn_overflow hs (by omega) u mark ch) (by decide)

/-- A byte of the head that the `switch` always takes. -/
theorem Reads.taken {P : Exec σ → Prop} {mark : Data → Option (List UInt8)}
    (hs : p.state.parsingHeader = true) (hn : p.nread ≤ maxHeaderSize)
    (hnext : switch settings ⟨{ p with nread := p.nread + 1 }, u, mark, none⟩ ch = .next e')
    (hP : P (e'.advance ch)) :
    Reads settings ⟨p, u, mark, none⟩ [ch] (p.nread + 1 ≤ maxHeaderSize) P :=
  (Reads.counted (c := True) hs hn (fun _ => ⟨e', hnext, hP⟩) fun hc => absurd trivial hc).conseq
    (true_and _).to_iff fun _ _ h => h

end Gxh.HttpParser
