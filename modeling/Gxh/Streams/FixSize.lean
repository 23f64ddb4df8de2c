import Gxh.Lib.Bytes
import Gxh.Lib.Signed

/-!
# Fixed-size transfers

`Stream::readFixSize` and `writeFixSize` on plain memory (`stream.cc`): one loop that calls the
stream's `read` or `write` for what is left until nothing is, or until a result is not positive.
What the calls answer is an input.

* `fixSizeLoop_spec` — the invariant: what is done and what is left make up the length;
* `fix_size_reports` — both functions move the bytes as they should for every length, but they
  return the length as an `int`, and report success exactly when that is positive.
-/

namespace Gxh.Stream.Plain

/-- One call `read(buffer + offset, count)` or `write(buffer + offset, count)`. -/
structure Transfer where
  offset : Nat
  count : Nat
  result : Int
  deriving DecidableEq, Repr

/-- The loop of `readFixSize` and `writeFixSize`: the calls it makes on these answers, and what it
returns, unless the last call has not answered yet. -/
def fixSizeLoop (length : Nat) : Nat → Int → List Int → List Transfer × Option Int
  | _, left, [] => ([], if left > 0 then none else some (toInt length))
  | offset, left, len :: answers =>
      if left > 0 then
        let call : Transfer := ⟨offset, left.toNat, len⟩
        if len ≤ 0 then ([call], some (longToInt len))
        else
          let r := fixSizeLoop length (wrap64 (offset + len.toNat)) (left - len) answers
          (call :: r.1, r.2)
      else ([], some (toInt length))

/-- The bytes that the calls have moved. -/
def transferred (calls : List Transfer) : Nat := (calls.map fun t => t.result.toNat).sum

/-- An answer of `read`: bytes put at the place asked for, or a result that is not positive. -/
inductive Answer
  | data (bytes : List UInt8)
  | stop (result : Int) (nonpos : result ≤ 0)
  deriving DecidableEq, Repr

def Answer.bytes : Answer → List UInt8
  | .data bytes => bytes
  | .stop .. => []

def Answer.result : Answer → Int
  | .data bytes => bytes.length
  | .stop result _ => result

/-- The effect of the calls of `read` on the memory. -/
def receive : List UInt8 → List Transfer → List Answer → List UInt8
  | buffer, call :: calls, answer :: answers =>
      receive (splice buffer call.offset answer.bytes) calls answers
  | buffer, _, _ => buffer

/-- `Stream::readFixSize(buffer, length)`: the memory afterwards, and the loop. -/
def readFixSize (buffer : List UInt8) (length : Nat) (answers : List Answer) :
    List UInt8 × List Transfer × Option Int :=
  let r := fixSizeLoop length 0 length (answers.map Answer.result)
  (receive buffer r.1 answers, r)

/-- `Stream::writeFixSize(buffer, length)`: the bytes that went out, and the loop. -/
def writeFixSize (buffer : List UInt8) (length : Nat) (answers : List Int) :
    List UInt8 × List Transfer × Option Int :=
  let r := fixSizeLoop length 0 length answers
  (r.1.flatMap fun t => (buffer.drop t.offset).take t.result.toNat, r)

/-- Each call starts where the last one ended and asks for all that is left, and only the last
may have a result that is not positive. -/
def Consecutive (length : Nat) : Nat → List Transfer → Prop
  | _, [] => True
  | offset, t :: rest =>
      t.offset = offset ∧ t.count = length - offset ∧ (rest ≠ [] → 0 < t.result) ∧
        Consecutive length (offset + t.result.toNat) rest

/-- No call has a result above its count or outside the range of `int`. -/
def Honest (calls : List Transfer) : Prop :=
  ∀ t ∈ calls, t.result ≤ t.count ∧ -half32 ≤ t.result ∧ t.result < half32

/-- A result that is not positive comes while bytes are left. -/
def Stops : Int → List Int → Prop
  | _, [] => False
  | left, len :: answers => 0 < left ∧ (len ≤ 0 ∨ Stops (left - len) answers)

/-- What holds of the loop from a place at which `offset` bytes are done. -/
structure LoopSpec (length offset : Nat) (answers : List Int)
    (r : List Transfer × Option Int) : Prop where
  consecutive : Consecutive length offset r.1
  bounded : offset + transferred r.1 ≤ length
  returns : length - offset ≤ answers.length → r.2.isSome = true
  returned : ∀ rt, r.2 = some rt →
    rt = toInt length ∧ offset + transferred r.1 = length ∧ ¬Stops (length - offset) answers ∨
    rt ≤ 0 ∧ offset + transferred r.1 < length ∧ Stops (length - offset) answers

theorem transferred_cons (t : Transfer) (calls : List Transfer) :
    transferred (t :: calls) = t.result.toNat + transferred calls := by
  unfold transferred
  rw [List.map_cons, List.sum_cons]

/-- An `int` result is returned as it is. -/
theorem longToInt_of_nonpos {i : Int} (hlo : -half32 ≤ i) (h : i ≤ 0) : longToInt i = i := by
  unfold longToInt toInt ofInt half32 at *
  split
  · omega
  · omega

theorem not_stops_of_done {left : Int} (h : left ≤ 0) (answers : List Int) :
    ¬Stops left answers := by
  cases answers with
  | nil => exact id
  | cons len answers => exact fun hstops => absurd hstops.1 (by omega)

/-- Nothing is left. -/
theorem loopSpec_done {length offset : Nat} (hdone : offset = length) (answers : List Int) :
    LoopSpec length offset answers ([], some (toInt length)) := by
  refine ⟨trivial, Nat.le_of_eq hdone, fun _ => rfl, ?_⟩
  intro rt hrt
  cases hrt
  exact .inl ⟨rfl, hdone, not_stops_of_done (by omega) _⟩

/-- The loop ends with this result. -/
theorem loopSpec_failed {length offset : Nat} (hleft : offset < length) {len : Int}
    (hlen : len ≤ 0) (hlo : -half32 ≤ len) (answers : List Int) :
    LoopSpec length offset (len :: answers)
      ([⟨offset, length - offset, len⟩], some (longToInt len)) := by
  have hsum : transferred [⟨offset, length - offset, len⟩] = 0 := by
    rw [transferred_cons, Int.toNat_of_nonpos hlen]
    rfl
  refine ⟨⟨rfl, rfl, fun h => absurd rfl h, trivial⟩, ?_, fun _ => rfl, ?_⟩
  · rw [hsum]
    exact Nat.le_of_lt hleft
  · intro rt hrt
    cases hrt
    refine .inr ⟨?_, ?_, by omega, .inl hlen⟩
    · rw [longToInt_of_nonpos hlo hlen]
      exact hlen
    · rw [hsum]
      exact hleft

/-- A call that moves some bytes, and what holds from behind them. -/
theorem LoopSpec.call {length offset : Nat} {len : Int} {answers : List Int}
    {r : List Transfer × Option Int} (h : LoopSpec length (offset + len.toNat) answers r)
    (hlen : 0 < len) (hcount : offset + len.toNat ≤ length) :
    LoopSpec length offset (len :: answers) (⟨offset, length - offset, len⟩ :: r.1, r.2) := by
  have hrest : (length : Int) - offset - len = length - (offset + len.toNat : Nat) := by
    omega
  have hbound := h.bounded
  refine ⟨⟨rfl, rfl, fun _ => hlen, h.consecutive⟩, ?_, ?_, ?_⟩
  · rw [transferred_cons]
    dsimp only
    omega
  · intro hanswers
    rw [List.length_cons] at hanswers
    exact h.returns (by omega)
  · intro rt hrt
    rw [transferred_cons]
    dsimp only
    rcases h.returned rt hrt with ⟨heq, hall, hgo⟩ | ⟨hle, hpart, hstop⟩
    · refine .inl ⟨heq, by omega, ?_⟩
      rintro ⟨-, hnow | hlater⟩
      · exact absurd hlen (not_lt.mpr hnow)
      · rw [hrest] at hlater
        exact hgo hlater
    · refine .inr ⟨hle, by omega, by omega, .inr ?_⟩
      rw [hrest]
      exact hstop

theorem fixSizeLoop_spec {length : Nat} (hlength : length < 9223372036854775808)
    {offset : Nat} (hoffset : offset ≤ length) (answers : List Int)
    (hhonest : Honest (fixSizeLoop length offset (length - offset) answers).1) :
    LoopSpec length offset answers (fixSizeLoop length offset (length - offset) answers) := by
  induction answers generalizing offset with
  | nil =>
      unfold fixSizeLoop
      by_cases hleft : (length : Int) - offset > 0
      · rw [if_pos hleft]
        exact ⟨trivial, hoffset, fun h => absurd h (by simp; omega), nofun⟩
      · rw [if_neg hleft]
        exact loopSpec_done (by omega) []
  | cons len answers ih =>
      unfold fixSizeLoop at hhonest ⊢
      by_cases hleft : (length : Int) - offset > 0
      · have hcount : ((length : Int) - offset).toNat = length - offset := by omega
        rw [if_pos hleft] at hhonest ⊢
        dsimp only at hhonest ⊢
        rw [hcount] at hhonest ⊢
        by_cases hlen : len ≤ 0
        · rw [if_pos hlen] at hhonest ⊢
          obtain ⟨-, hlo, -⟩ := hhonest _ List.mem_cons_self
          exact loopSpec_failed (by omega) hlen hlo answers
        · rw [if_neg hlen] at hhonest ⊢
          obtain ⟨hle, -, -⟩ := hhonest _ List.mem_cons_self
          dsimp only at hle
          -- the offset does not wrap: no call has moved more than it was asked for
          have hwrap : wrap64 (offset + len.toNat) = offset + len.toNat :=
            wrap64_of_lt (by unfold size64; omega)
          have hrest : (length : Int) - offset - len = length - (offset + len.toNat : Nat) := by
            omega
          rw [hwrap, hrest] at hhonest ⊢
          have htail := ih (by omega) fun t ht => hhonest t (List.mem_cons_of_mem _ ht)
          exact htail.call (not_le.mp hlen) (by omega)
      · rw [if_neg hleft]
        exact loopSpec_done (by omega) _

/-! ## The bytes -/

theorem Answer.length_bytes (a : Answer) : a.bytes.length = a.result.toNat := by
  cases a with
  | data bytes => rfl
  | stop result nonpos => exact (Int.toNat_of_nonpos nonpos).symm

/-- The calls take the answers in order. -/
theorem fixSizeLoop_results (length offset : Nat) (left : Int) (answers : List Int) :
    (fixSizeLoop length offset left answers).1.map Transfer.result <+: answers := by
  induction answers generalizing offset left with
  | nil => exact List.prefix_rfl
  | cons len answers ih =>
      unfold fixSizeLoop
      split
      · dsimp only
        split
        · exact (List.prefix_cons_inj len).mpr List.nil_prefix
        · exact (List.prefix_cons_inj len).mpr (ih _ _)
      · exact List.nil_prefix

/-- What the calls have received is in the memory in one piece, and as much as they report. -/
theorem receive_eq {length offset : Nat} {calls : List Transfer} {answers : List Answer}
    {buffer : List UInt8} (hcons : Consecutive length offset calls)
    (hresults : calls.map Transfer.result <+: answers.map Answer.result)
    (hfit : offset + transferred calls ≤ buffer.length) :
    receive buffer calls answers =
      splice buffer offset ((answers.take calls.length).flatMap Answer.bytes) ∧
    ((answers.take calls.length).flatMap Answer.bytes).length = transferred calls := by
  induction calls generalizing offset answers buffer with
  | nil => exact ⟨(splice_nil buffer offset).symm, rfl⟩
  | cons call calls ih =>
      obtain ⟨hoffset, -, -, hcons⟩ := hcons
      cases answers with
      | nil => exact absurd (List.prefix_nil.mp hresults) (List.cons_ne_nil _ _)
      | cons answer answers =>
          obtain ⟨hresult, hresults⟩ := List.cons_prefix_cons.mp hresults
          rw [transferred_cons] at hfit
          have hlen : answer.bytes.length = call.result.toNat := by
            rw [answer.length_bytes, ← hresult]
          have hroom : offset + answer.bytes.length ≤ buffer.length := by omega
          have hfit' : offset + call.result.toNat + transferred calls ≤
              (splice buffer offset answer.bytes).length := by
            rw [length_splice hroom]
            omega
          obtain ⟨hmem, hcount⟩ := ih hcons hresults hfit'
          refine ⟨?_, ?_⟩
          · show receive (splice buffer call.offset answer.bytes) calls answers = _
            rw [hoffset, hmem, ← hlen, splice_splice (by omega)]
            rfl
          · rw [transferred_cons, ← hlen, ← hcount]
            exact List.length_append

/-- What the calls have sent is the beginning of the memory. -/
theorem sent_eq {length offset : Nat} {calls : List Transfer} (buffer : List UInt8)
    (hcons : Consecutive length offset calls) :
    (calls.flatMap fun t => (buffer.drop t.offset).take t.result.toNat) =
      (buffer.drop offset).take (transferred calls) := by
  induction calls generalizing offset with
  | nil => exact (List.take_zero).symm
  | cons call calls ih =>
      obtain ⟨hoffset, -, -, hcons⟩ := hcons
      rw [List.flatMap_cons, ih hcons, transferred_cons, hoffset, List.take_add, List.drop_drop]

/-! ## The answer -/

/-- The loop returns, its calls move the bytes in order, without gap or overlap, until one has a
result that is not positive, and the answer is positive if and only if all bytes were moved. -/
structure Reports (length : Nat) (r : List Transfer × Option Int) : Prop where
  consecutive : Consecutive length 0 r.1
  success : ∃ rt, r.2 = some rt ∧ (0 < rt ↔ transferred r.1 = length)

theorem reports_iff {length : Nat} {answers : List Int}
    {r : List Transfer × Option Int} (h : LoopSpec length 0 answers r)
    (hanswers : length ≤ answers.length) :
    Reports length r ↔ 0 < toInt length ∨ Stops length answers := by
  obtain ⟨rt, hrt⟩ := Option.isSome_iff_exists.mp (h.returns hanswers)
  have hzero : ((length : Int) - (0 : Nat)) = length := by omega
  have hcases := h.returned rt hrt
  rw [hzero] at hcases
  constructor
  · rintro ⟨-, rt', hrt', hsuccess⟩
    obtain rfl := Option.some.inj (hrt.symm.trans hrt')
    rcases hcases with ⟨heq, hall, -⟩ | ⟨-, -, hstops⟩
    · left
      rw [← heq]
      exact hsuccess.mpr (by omega)
    · exact .inr hstops
  · intro hcond
    refine ⟨h.consecutive, rt, hrt, ?_⟩
    rcases hcases with ⟨heq, hall, hgo⟩ | ⟨hle, hpart, -⟩
    · rw [heq]
      exact iff_of_true (hcond.resolve_right hgo) (by omega)
    · exact iff_of_false (by omega) (by omega)

theorem loop_spec {length : Nat} (hlength : length < 9223372036854775808) (answers : List Int)
    (hhonest : Honest (fixSizeLoop length 0 length answers).1) :
    LoopSpec length 0 answers (fixSizeLoop length 0 length answers) := by
  have hzero : ((length : Int) - (0 : Nat)) = length := by omega
  have h := @fixSizeLoop_spec length hlength 0 (Nat.zero_le _) answers
  rw [hzero] at h
  exact h hhonest

/-- Whatever the underlying calls answer, the two functions move the right bytes; they report
success exactly if and only if the length is positive as an `int`, or the transfer does not
complete. -/
theorem fix_size_reports {length : Nat} (hlength : length < 9223372036854775808)
    {buffer : List UInt8} (hbuffer : length ≤ buffer.length) :
    (∀ answers : List Answer, length ≤ answers.length →
      Honest (readFixSize buffer length answers).2.1 →
      (readFixSize buffer length answers).1 = splice buffer 0
        ((answers.take (readFixSize buffer length answers).2.1.length).flatMap Answer.bytes) ∧
      (Reports length (readFixSize buffer length answers).2 ↔
        0 < toInt length ∨ Stops length (answers.map Answer.result))) ∧
    ∀ answers : List Int, length ≤ answers.length →
      Honest (writeFixSize buffer length answers).2.1 →
      (writeFixSize buffer length answers).1 =
        buffer.take (transferred (writeFixSize buffer length answers).2.1) ∧
      (Reports length (writeFixSize buffer length answers).2 ↔
        0 < toInt length ∨ Stops length answers) := by
  refine ⟨?_, ?_⟩
  · intro answers hanswers hhonest
    have hspec := loop_spec hlength (answers.map Answer.result) hhonest
    have hbounded := hspec.bounded
    refine ⟨?_, reports_iff hspec (by rw [List.length_map]; exact hanswers)⟩
    exact (receive_eq hspec.consecutive (fixSizeLoop_results _ _ _ _) (by omega)).1
  · intro answers hanswers hhonest
    have hspec := loop_spec hlength answers hhonest
    exact ⟨sent_eq buffer hspec.consecutive, reports_iff hspec hanswers⟩

theorem fix_size_reports_three :
    Reports 3 (readFixSize [9, 9, 9, 9] 3 [.data [1, 2], .data [3], .data [4]]).2 ∧
    Reports 3 (writeFixSize [1, 2, 3, 4] 3 [2, -1, 1]).2 := by
  have hread := (@fix_size_reports 3 (by decide) [9, 9, 9, 9] (by decide)).1
    [.data [1, 2], .data [3], .data [4]] (by decide)
  have hwrite := (@fix_size_reports 3 (by decide) [1, 2, 3, 4] (by decide)).2 [2, -1, 1]
    (by decide)
  refine ⟨(hread ?_).2.mpr (.inl (by decide)), (hwrite ?_).2.mpr (.inl (by decide))⟩
  · unfold Honest
    decide
  · unfold Honest
    decide

/-- Two gigabytes are written by two calls, and the answer is negative. -/
theorem fix_size_two_gigabytes :
    (writeFixSize (List.replicate 2147483648 0) 2147483648 [2147483647, 1]).2 =
      ([⟨0, 2147483648, 2147483647⟩, ⟨2147483647, 1, 1⟩], some (-2147483648)) ∧
    ¬Reports 2147483648
      (writeFixSize (List.replicate 2147483648 0) 2147483648 [2147483647, 1]).2 := by
  have hrun : (writeFixSize (List.replicate 2147483648 0) 2147483648 [2147483647, 1]).2 =
      ([⟨0, 2147483648, 2147483647⟩, ⟨2147483647, 1, 1⟩], some (-2147483648)) := by
    show fixSizeLoop 2147483648 0 2147483648 [2147483647, 1] = _
    decide
  refine ⟨hrun, ?_⟩
  rw [hrun]
  rintro ⟨-, rt, hrt, hsuccess⟩
  cases hrt
  exact absurd (hsuccess.mpr (by decide)) (by decide)

end Gxh.Stream.Plain
