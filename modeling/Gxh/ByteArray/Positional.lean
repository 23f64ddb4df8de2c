import Gxh.ByteArray.Views

/-!
# Reads at a position

The positional `getReadBuffers` takes its bound on the length from `m_position`, and the
positional `read` starts at the block of `m_position`. `gathers_iff` and `readsAt_iff` say for
which arguments they deliver the bytes at the position asked for all the same.
-/

namespace Gxh.ByteArray

variable {s : ByteArray} {b : Nat} {order : Endian}

/-! ## `getReadBuffers(buffers, len, position)` -/

/-- The iovecs hold the bytes of the content from `position` on, at most `len`, and none reaches
behind the content. -/
def Gathers (s : ByteArray) (len position : Nat) : Prop :=
  ∃ iovs, s.getReadBuffersAt len position = .done (iovs, min len (s.size - position)) s ∧
    gather s.nodes iovs = (s.content.drop position).take (min len (s.size - position)) ∧
    ∀ v ∈ iovs, v.node * s.baseSize + v.base + v.len ≤ s.size

/-- The value returned is bounded by what is left behind `m_position`. -/
theorem getReadBuffersAt_count (h : Wf s) {len position n : Nat} {iovs : List Iovec}
    (heq : s.getReadBuffersAt len position = .done (iovs, n) s) :
    n = min len (s.size - s.position) := by
  have hmin : (if len > s.size - s.position then s.size - s.position else len) =
      min len (s.size - s.position) := by
    split <;> omega
  unfold getReadBuffersAt at heq
  dsimp only at heq
  rw [h.getReadSize_eq, hmin] at heq
  split at heq
  · rename_i hzero
    injection heq with hpair
    injection hpair with _ hn
    omega
  · split at heq
    · cases heq
    · injection heq with hpair
      injection hpair with _ hn
      exact hn.symm

theorem getReadBuffersAt_eq (h : Wf s) {len position : Nat}
    (hfit : position + min len (s.size - s.position) ≤ s.size) :
    ∃ iovs, s.getReadBuffersAt len position = .done (iovs, min len (s.size - s.position)) s ∧
      Covers s.baseSize position (position + min len (s.size - s.position)) iovs := by
  have hsize := h.size
  have hmin : (if len > s.size - s.position then s.size - s.position else len) =
      min len (s.size - s.position) := by
    split <;> omega
  unfold getReadBuffersAt
  dsimp only
  rw [h.getReadSize_eq, hmin]
  generalize min len (s.size - s.position) = n at hfit ⊢
  by_cases hzero : n = 0
  · rw [if_pos hzero, hzero]
    exact ⟨[], rfl, rfl⟩
  · obtain ⟨iovs, heq, hcov⟩ := h.buffers (p := position) (n := n) (by omega) (by omega)
    rw [if_neg hzero, heq]
    exact ⟨iovs, rfl, hcov⟩

theorem gathers_iff (hb : 0 < b) (h53 : b < 2 ^ 53)
    (h : (byteArraySys order b).Reaches Sized s) {len position : Nat} (hpos : position ≤ s.size) :
    Gathers s len position ↔
      position = s.position ∨ len ≤ s.size - max position s.position := by
  have hwf : Wf s := (wf_inductive hb h53).invariant h
  have hmpos := hwf.position
  constructor
  · rintro ⟨iovs, heq, -, -⟩
    have hcount := getReadBuffersAt_count hwf heq
    omega
  · intro hcond
    have hsame : min len (s.size - position) = min len (s.size - s.position) := by omega
    have hend : position + min len (s.size - s.position) ≤ s.size := by omega
    obtain ⟨iovs, heq, hcov⟩ := getReadBuffersAt_eq hwf hend
    have hgather := hwf.gather_eq hcov hend
    rw [Nat.add_sub_cancel_left] at hgather
    refine ⟨iovs, ?_, ?_, ?_⟩
    · rw [hsame, heq]
    · rw [hsame, hgather]
    · intro v hv
      exact (hcov.bound v hv).trans hend

/-- Bytes one to three of four, with the position at the first. -/
theorem gathers_iff_first : ∃ s, (byteArraySys .little 2).Reaches Sized s ∧
    (Gathers s 3 1 ↔ 1 = s.position ∨ 3 ≤ s.size - max 1 s.position) := by
  obtain ⟨s, hs, hsize⟩ := exists_reached (b := 2) [.write [1, 2, 3, 4], .setPosition 0]
    (p := fun s => 1 ≤ s.size) (by decide +kernel)
  exact ⟨s, hs, gathers_iff (by decide) (by decide) hs hsize⟩

/-- Right after `write` nothing is gathered from position 0. -/
theorem nothing_gathered : ∃ s, (byteArraySys .little 4).Reaches Sized s ∧ 0 ≤ s.size ∧
    s.content = [1, 2, 3] ∧ ¬ Gathers s 3 0 := by
  obtain ⟨s, hs, hstate⟩ := exists_reached (b := 4) [.write [1, 2, 3]]
    (p := fun s => s.content = [1, 2, 3] ∧ s.size = 3 ∧ s.position = 3) (by decide +kernel)
  obtain ⟨hcontent, hsize, hposition⟩ := hstate
  refine ⟨s, hs, Nat.zero_le _, hcontent, ?_⟩
  rintro ⟨iovs, heq, -, -⟩
  have hwf : Wf s := (wf_inductive (by decide) (by decide)).invariant hs
  have hcount := getReadBuffersAt_count hwf heq
  rw [hsize, hposition] at hcount
  omega

/-! ## `read(buf, size, position)` -/

/-- What the caller of an operation sees: a value, an exception, or nothing. -/
def outcome {α : Type} : Result α → Option (Except OutOfRange α)
  | .done a _ => some (.ok a)
  | .thrown e _ => some (.error e)
  | .crash => none

/-- The bytes at the position, or the exception when there are not as many. -/
def ReadsAt (s : ByteArray) (size position : Nat) : Prop :=
  outcome (s.readAt size position) =
    some (if position + size ≤ s.size then .ok ((s.content.drop position).take size)
      else .error .notEnoughLen)

/-- When they are there: the walk from the block of `m_position` finds the same bytes. When they
are not: `m_size - position` does not wrap, or not far enough. -/
def FindsAt (s : ByteArray) (size position : Nat) : Prop :=
  if position + size ≤ s.size then
    s.position < s.capacity ∧ (size = 0 ∨
      s.origin (position % s.baseSize) + size ≤ s.capacity ∧
      (s.bytes.drop (s.origin (position % s.baseSize))).take size =
        (s.content.drop position).take size)
  else position ≤ s.size ∨ size64 < size + (position - s.size)

/-- A position in the block of `m_position` is found. -/
theorem findsAt_block (h : Wf s) {size position : Nat} (hfit : position + size ≤ s.size)
    (hblock : position / s.baseSize = s.position / s.baseSize) (hn : s.position < s.capacity) :
    FindsAt s size position := by
  have hsize := h.size
  have horigin : s.origin (position % s.baseSize) = position := by
    rw [origin, ← hblock, Nat.mul_comm]
    exact Nat.div_add_mod _ _
  unfold FindsAt
  rw [if_pos hfit, horigin, slice_content hfit]
  exact ⟨hn, .inr ⟨by omega, rfl⟩⟩

/-- A walk that starts at the null pointer, also one for no bytes. -/
theorem readFrom_null (h : Wf s) {npos n : Nat} (hend : s.position = s.capacity) :
    s.readFrom npos n = none := by
  unfold readFrom
  rw [h.cur, curAt, if_pos hend]

/-- A walk that runs off the end of the chain. -/
theorem readFrom_short (h : Wf s) {npos n : Nat} (hpos : npos < s.baseSize) (hn : 0 < n)
    (hshort : s.capacity < s.origin npos + n) : s.readFrom npos n = none := by
  have hle : s.position ≤ s.capacity := h.position.trans h.size
  have hmul := h.capacity
  by_cases hend : s.position = s.capacity
  · exact readFrom_null h hend
  · have hlong : s.tail.length * s.baseSize < npos + n := by
      unfold origin at hshort
      rw [tail, List.length_drop, Nat.sub_mul]
      omega
    unfold readFrom
    rw [h.cur_eq (by omega)]
    dsimp only
    rw [if_neg (by omega), show s.nodes.drop (s.position / s.baseSize) = s.tail from rfl,
      readNodes_none h.tail_blocks hpos.le hlong]

/-- The answer of the positional `read` when the bytes are there. -/
theorem outcome_readAt (h : Wf s) {size position : Nat} (hfit : position + size ≤ s.size) :
    outcome (s.readAt size position) =
      (s.readFrom (position % s.baseSize) size).map fun r => .ok r.1 := by
  have hsize := h.size
  have hsmall := h.small.2
  have hleft : sub64 s.size position = s.size - position :=
    sub64_of_le (by unfold size64; omega) (by omega)
  unfold readAt
  rw [hleft, if_neg (by omega)]
  cases s.readFrom (position % s.baseSize) size with
  | none => rfl
  | some r => rfl

theorem readsAt_in (h : Wf s) {size position : Nat} (hfit : position + size ≤ s.size) :
    ReadsAt s size position ↔ FindsAt s size position := by
  have hle : s.position ≤ s.capacity := h.position.trans h.size
  have hmod := Nat.mod_lt position h.base
  unfold ReadsAt FindsAt
  rw [if_pos hfit, if_pos hfit, outcome_readAt h hfit]
  -- at the end of the chain `m_cur` is null
  by_cases hend : s.position = s.capacity
  · rw [readFrom_null h hend, Option.map_none]
    constructor
    · intro hnone
      cases hnone
    · rintro ⟨hlt, -⟩
      omega
  · by_cases hn : size = 0
    · have hnone : s.readFrom (position % s.baseSize) 0 = some ([], 0) := by
        unfold readFrom
        rw [h.cur_eq (by omega)]
        rfl
      rw [hn, hnone, Option.map_some, List.take_zero]
      exact ⟨fun _ => ⟨by omega, .inl rfl⟩, fun _ => rfl⟩
    · by_cases hroom : s.origin (position % s.baseSize) + size ≤ s.capacity
      · rw [readFrom_eq h hmod (by omega) hroom, Option.map_some]
        constructor
        · intro heq
          injection heq with heq
          injection heq with heq
          exact ⟨by omega, .inr ⟨hroom, heq⟩⟩
        · rintro ⟨-, hzero | ⟨-, heq⟩⟩
          · exact absurd hzero hn
          · rw [heq]
      · rw [readFrom_short h hmod (by omega) (by omega), Option.map_none]
        constructor
        · intro hnone
          cases hnone
        · rintro ⟨-, hzero | ⟨hfits, -⟩⟩
          · exact absurd hzero hn
          · exact absurd hfits hroom

theorem readsAt_out (h : Wf s) {size position : Nat} (hpos : position < 2 ^ 64)
    (hfit : ¬ position + size ≤ s.size) : ReadsAt s size position ↔ FindsAt s size position := by
  have hsize := h.size
  have hsmall := h.small.2
  unfold ReadsAt FindsAt
  rw [if_neg hfit, if_neg hfit]
  -- the exception comes exactly if the difference, wrapped or not, is below the size
  have hthrows : outcome (s.readAt size position) = some (.error .notEnoughLen) ↔
      sub64 s.size position < size := by
    unfold readAt
    by_cases hlt : size > sub64 s.size position
    · rw [if_pos hlt]
      exact ⟨fun _ => hlt, fun _ => rfl⟩
    · rw [if_neg hlt]
      constructor
      · intro hthrown
        split at hthrown
        · cases hthrown
        · cases hthrown
      · intro hgt
        exact absurd hgt hlt
  rw [hthrows]
  by_cases hle : position ≤ s.size
  · rw [sub64_of_le (by unfold size64; omega) hle]
    constructor
    · intro _
      exact .inl hle
    · intro _
      omega
  · rw [sub64_of_lt (by unfold size64; omega) (by omega)]
    unfold size64
    omega

/-- The positional `read` is right exactly when the walk from the block of `m_position` finds the
bytes, and right whatever `m_position` exactly when it does from every one. -/
theorem readsAt_iff (hb : 0 < b) (h53 : b < 2 ^ 53) (h : (byteArraySys order b).Reaches Sized s)
    {size position : Nat} (hpos : position < 2 ^ 64) :
    (ReadsAt s size position ↔ FindsAt s size position) ∧
    (ReadsAt s size position ∧ (∀ p ≤ s.size, outcome ((s.seek p).readAt size position) =
        outcome (s.readAt size position)) ↔
      ∀ p ≤ s.size, FindsAt (s.seek p) size position) := by
  have hiff : ∀ t, Wf t → (ReadsAt t size position ↔ FindsAt t size position) := by
    intro t ht
    by_cases hfit : position + size ≤ t.size
    · exact readsAt_in ht hfit
    · exact readsAt_out ht hpos hfit
  have hwf : Wf s := (wf_inductive hb h53).invariant h
  refine ⟨hiff s hwf, ?_, ?_⟩
  · rintro ⟨hreads, hsame⟩ p hp
    have hmoved : outcome ((s.seek p).readAt size position) = _ := (hsame p hp).trans hreads
    exact (hiff _ (hwf.seek hp)).mp hmoved
  · intro hfinds
    have hreads : ∀ p ≤ s.size, ReadsAt (s.seek p) size position :=
      fun p hp => (hiff _ (hwf.seek hp)).mpr (hfinds p hp)
    have hown := hreads s.position hwf.position
    rw [hwf.seek_position] at hown
    exact ⟨hown, fun p hp => (hreads p hp).trans hown.symm⟩

/-- Two bytes of the block of `m_position`. -/
theorem readsAt_iff_block : ∃ s, (byteArraySys .little 4).Reaches Sized s ∧
    (ReadsAt s 2 1 ↔ FindsAt s 2 1) ∧
    (ReadsAt s 2 1 ∧ (∀ p ≤ s.size, outcome ((s.seek p).readAt 2 1) = outcome (s.readAt 2 1)) ↔
      ∀ p ≤ s.size, FindsAt (s.seek p) 2 1) := by
  obtain ⟨s, hs, -⟩ := exists_reached (b := 4) [.write [1, 2, 3], .setPosition 0]
    (p := fun s => s.size = 3) (by decide +kernel)
  exact ⟨s, hs, readsAt_iff (by decide) (by decide) hs (by decide)⟩

/-- The first byte, read with `m_position` in the second block, is the third. -/
theorem wrong_block_read : ∃ s, (byteArraySys .little 2).Reaches Sized s ∧
    0 + 1 ≤ s.size ∧ s.content = [1, 2, 3] ∧ outcome (s.readAt 1 0) = some (.ok [3]) ∧
    ¬ ReadsAt s 1 0 := by
  obtain ⟨s, hs, hstate⟩ := exists_reached (b := 2) [.write [1, 2, 3]]
    (p := fun s => 0 + 1 ≤ s.size ∧ s.content = [1, 2, 3] ∧
      (s.readFrom (0 % s.baseSize) 1).map Prod.fst = some [3])
    (by decide +kernel)
  obtain ⟨hfit, hcontent, hread⟩ := hstate
  have hwf : Wf s := (wf_inductive (by decide) (by decide)).invariant hs
  have houtcome : outcome (s.readAt 1 0) = some (.ok [3]) := by
    rw [outcome_readAt hwf hfit]
    obtain ⟨r, hr, hr3⟩ := Option.map_eq_some_iff.mp hread
    rw [hr, Option.map_some, hr3]
  refine ⟨s, hs, hfit, hcontent, houtcome, ?_⟩
  intro hreads
  unfold ReadsAt at hreads
  rw [houtcome, if_pos hfit, hcontent] at hreads
  revert hreads
  decide

end Gxh.ByteArray
