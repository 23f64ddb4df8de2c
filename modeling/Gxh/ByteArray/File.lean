import Gxh.ByteArray.Strings
import Gxh.ByteArray.Views

/-!
# Export to a file and import

`writeToFile` hands the file a stretch of each block from `m_cur` on. The length of a stretch
is the block size, or what is left to write if that is less, minus the offset of the position:
right from the start of a block (`writeFileLoop_aligned`), and from inside a block only when
the rest of the content is at least a block long. `file_round_trip` says when the export is the
content behind the position, which the import always restores.
-/

namespace Gxh.ByteArray

variable {s : ByteArray} {b : Nat} {order : Endian}

/-- A call `ofs.write(cur->ptr + base, len)`. -/
structure WriteCall where
  node : Nat
  base : Int
  len : Int
  deriving DecidableEq, Repr

/-- The loop of `writeToFile` over the blocks from number `i` on. `diff` is an `int` and
`pos % m_baseSize` an unsigned remainder. -/
def writeFileLoop (baseSize : Nat) :
    List (List UInt8) → Nat → Int → Int → Option (List WriteCall)
  | [], _, _, readSize => if readSize > 0 then none else some []
  | _ :: rest, i, pos, readSize =>
      if readSize > 0 then
        let diff := toInt ((pos % size64).toNat % baseSize)
        let len := (if readSize > baseSize then (baseSize : Int) else readSize) - diff
        (writeFileLoop baseSize rest (i + 1) (pos + len) (readSize - len)).map
          (⟨i, diff, len⟩ :: ·)
      else some []

/-- `ByteArray::writeToFile`: the value returned and the calls of `ofs.write`; `opened` is
whether the file opens. -/
def writeToFile (s : ByteArray) (opened : Bool) : Result (Bool × List WriteCall) :=
  if opened then
    let i := s.cur.getD s.nodes.length
    match writeFileLoop s.baseSize (s.nodes.drop i) i s.position s.getReadSize with
    | none => .crash
    | some calls => .done (true, calls) s
  else .done (false, []) s

/-! ## What a call hands over -/

/-- The stretch is inside its block. -/
def WriteCall.Inside (b : Nat) (c : WriteCall) : Prop :=
  0 ≤ c.base ∧ 0 ≤ c.len ∧ c.base + c.len ≤ b

def WriteCall.stretch (c : WriteCall) : Iovec := ⟨c.node, c.base.toNat, c.len.toNat⟩

/-- What the file holds after calls inside the blocks. -/
def fileOf (s : ByteArray) (calls : List WriteCall) : List UInt8 :=
  gather s.nodes (calls.map WriteCall.stretch)

/-- `toInt` cuts off nothing exactly below `2^31`. -/
theorem toInt_eq_iff {n : Nat} : toInt n = n ↔ n < 2 ^ 31 := by
  unfold toInt
  split <;> omega

@[simp] theorem writeFileLoop_zero (nodes : List (List UInt8)) (i : Nat) (pos : Int) :
    writeFileLoop b nodes i pos 0 = some [] := by
  cases nodes with
  | nil => rfl
  | cons node rest => rfl

/-- The offset of a position whose conversion to `int` is exact. -/
theorem diff_eq {p : Nat} (hp : p < 2 ^ 64) (hint : p % b < 2 ^ 31) :
    toInt (((p : Int) % size64).toNat % b) = (p % b : Nat) := by
  have hmod : ((p : Int) % size64).toNat = p := by
    unfold size64
    omega
  rw [hmod]
  exact toInt_eq_iff.mpr hint

/-- The first call is for the first block. -/
theorem writeFileLoop_head {nodes : List (List UInt8)} {i : Nat} {pos n : Int} {c : WriteCall}
    {more : List WriteCall} (h : writeFileLoop b nodes i pos n = some (c :: more)) :
    c.node = i := by
  cases nodes with
  | nil =>
      rw [writeFileLoop] at h
      split at h <;> cases h
  | cons node rest =>
      rw [writeFileLoop] at h
      split at h
      · obtain ⟨later, -, hcons⟩ := Option.map_eq_some_iff.mp h
        injection hcons with hc
        rw [← hc]
      · cases h

/-- From the start of a block the stretches are the blocks, the last one cut short. -/
theorem writeFileLoop_aligned {nodes : List (List UInt8)} (hb : 0 < b) {i n : Nat}
    (hfit : n ≤ nodes.length * b) (hsmall : i * b + n < 2 ^ 64) :
    ∃ calls, writeFileLoop b nodes i (i * b : Nat) n = some calls ∧
      (∀ c ∈ calls, c.Inside b) ∧
      Covers b (i * b) (i * b + n) (calls.map WriteCall.stretch) := by
  induction nodes generalizing i n with
  | nil =>
      rw [List.length_nil, Nat.zero_mul] at hfit
      have hn : n = 0 := by omega
      rw [hn]
      exact ⟨[], rfl, by simp, rfl⟩
  | cons node rest ih =>
      rw [List.length_cons, Nat.add_mul, Nat.one_mul] at hfit
      by_cases hn : n = 0
      · rw [hn]
        exact ⟨[], rfl, by simp, rfl⟩
      · have hoffset : i * b % b = 0 := Nat.mul_mod_left _ _
        have hdiff := diff_eq (b := b) (p := i * b) (by omega) (by omega)
        rw [hoffset] at hdiff
        have hlen : (if (n : Int) > b then (b : Int) else n) - (0 : Nat) = (min n b : Nat) := by
          split <;> omega
        have hinside : (WriteCall.mk i (0 : Nat) (min n b : Nat)).Inside b := by
          refine ⟨le_rfl, Int.natCast_nonneg _, ?_⟩
          show ((0 : Nat) : Int) + (min n b : Nat) ≤ b
          omega
        have hfits : 0 + min n b ≤ b := by omega
        simp only [writeFileLoop, if_pos (show (n : Int) > 0 by omega), hdiff, hlen]
        by_cases hlast : n ≤ b
        · -- the rest of the content ends in this block
          have hleft : (n : Int) - (min n b : Nat) = 0 := by omega
          have hend : i * b + min n b = i * b + n := by omega
          rw [hleft, writeFileLoop_zero]
          refine ⟨_, rfl, ?_, rfl, hfits, hend⟩
          intro c hc
          rw [List.mem_singleton.mp hc]
          exact hinside
        · have hstep : (i + 1) * b = i * b + min n b := by
            rw [Nat.add_mul]
            omega
          obtain ⟨calls, heq, hrest, hcov⟩ := ih (i := i + 1) (n := n - min n b) (by omega)
            (by omega)
          have hnext : ((i * b : Nat) : Int) + (min n b : Nat) = ((i + 1) * b : Nat) := by omega
          have hleft : (n : Int) - (min n b : Nat) = (n - min n b : Nat) := by omega
          have hend : (i + 1) * b + (n - min n b) = i * b + n := by omega
          rw [hend, hstep] at hcov
          rw [hnext, hleft, heq]
          refine ⟨_, rfl, ?_, rfl, hfits, hcov⟩
          intro c hc
          rcases List.mem_cons.mp hc with rfl | hc
          · exact hinside
          · exact hrest c hc

/-- From inside a block, when the rest of the content is at least a block. -/
theorem writeFileLoop_unaligned {node : List UInt8} {rest : List (List UInt8)} (hb : 0 < b)
    {i p n : Nat} (hi : i = p / b) (hint : p % b < 2 ^ 31) (hlong : b ≤ n)
    (hfit : p % b + n ≤ (rest.length + 1) * b) (hsmall : p + n < 2 ^ 64) :
    ∃ calls, writeFileLoop b (node :: rest) i p n = some calls ∧
      (∀ c ∈ calls, c.Inside b) ∧ Covers b p (p + n) (calls.map WriteCall.stretch) := by
  have hmod := Nat.mod_lt p hb
  have hsplit := Nat.div_add_mod p b
  rw [← hi, Nat.mul_comm] at hsplit
  have hnext : p + (b - p % b) = (i + 1) * b := by
    rw [Nat.add_mul]
    omega
  have hend : (i + 1) * b + (n - (b - p % b)) = p + n := by omega
  rw [Nat.add_mul, Nat.one_mul] at hfit
  have hroom : n - (b - p % b) ≤ rest.length * b := by omega
  obtain ⟨calls, heq, hrest, hcov⟩ := writeFileLoop_aligned hb (i := i + 1) hroom (by omega)
  have hdiff := diff_eq (b := b) (p := p) (by omega) hint
  have hlen : (if (n : Int) > b then (b : Int) else n) - (p % b : Nat) = (b - p % b : Nat) := by
    split <;> omega
  have hpos : (p : Int) + (b - p % b : Nat) = ((i + 1) * b : Nat) := by omega
  have hleft : (n : Int) - (b - p % b : Nat) = (n - (b - p % b) : Nat) := by omega
  simp only [writeFileLoop, if_pos (show (n : Int) > 0 by omega), hdiff, hlen]
  rw [hpos, hleft, heq]
  rw [hend, ← hnext] at hcov
  refine ⟨_, rfl, ?_, hsplit, ?_, hcov⟩
  · intro c hc
    rcases List.mem_cons.mp hc with rfl | hc
    · refine ⟨Int.natCast_nonneg _, Int.natCast_nonneg _, ?_⟩
      show ((p % b : Nat) : Int) + (b - p % b : Nat) ≤ b
      omega
    · exact hrest c hc
  · show p % b + (b - p % b) ≤ b
    omega

/-- The stretches are, one after the other, the memory of the content behind the position. -/
def Exports (s : ByteArray) (calls : List WriteCall) : Prop :=
  s.writeToFile true = .done (true, calls) s ∧ (∀ c ∈ calls, c.Inside s.baseSize) ∧
    Covers s.baseSize s.position s.size (calls.map WriteCall.stretch)

/-- Nothing to write, the start of a block, or a block or more to write. -/
def Exportable (s : ByteArray) : Prop :=
  s.size = s.position ∨ s.position % s.baseSize = 0 ∨
    s.baseSize ≤ s.size - s.position ∧ s.position % s.baseSize < 2 ^ 31

instance (s : ByteArray) : Decidable (Exportable s) := inferInstanceAs (Decidable (_ ∨ _))

/-- What the loop starts with when there is something to write. -/
theorem writeToFile_eq (h : Wf s) (hlt : s.position < s.size) :
    s.writeToFile true =
      match writeFileLoop s.baseSize s.tail (s.position / s.baseSize) s.position
        (s.size - s.position : Nat) with
      | none => .crash
      | some calls => .done (true, calls) s := by
  have hsize := h.size
  unfold writeToFile
  rw [if_pos rfl, h.getReadSize_eq, h.cur_eq (by omega)]
  rfl

theorem exports_of_exportable (h : Wf s) (hcond : Exportable s) : ∃ calls, Exports s calls := by
  have hpos := h.position
  have hsize := h.size
  have hsmall := h.small.2
  by_cases hempty : s.size = s.position
  · refine ⟨[], ?_, by simp, hempty.symm⟩
    unfold writeToFile
    rw [if_pos rfl, h.getReadSize_eq, hempty, Nat.sub_self]
    show (match writeFileLoop _ _ _ _ ((0 : Nat) : Int) with
      | none => Result.crash
      | some calls => .done (true, calls) s) = _
    rw [Int.natCast_zero, writeFileLoop_zero]
  · have hroom := h.tail_room (n := s.size - s.position) (by omega)
    have hend : s.position + (s.size - s.position) = s.size := by omega
    have hsplit := Nat.div_add_mod s.position s.baseSize
    have hloop : ∃ calls, writeFileLoop s.baseSize s.tail (s.position / s.baseSize) s.position
        (s.size - s.position : Nat) = some calls ∧ (∀ c ∈ calls, c.Inside s.baseSize) ∧
        Covers s.baseSize s.position s.size (calls.map WriteCall.stretch) := by
      rw [Nat.mul_comm] at hsplit
      rcases hcond with heq | haligned | ⟨hlong, hint⟩
      · exact absurd heq hempty
      · have hstart : s.position / s.baseSize * s.baseSize = s.position := by omega
        have hfits : s.size - s.position ≤ s.tail.length * s.baseSize := by omega
        have hloop := writeFileLoop_aligned h.base (i := s.position / s.baseSize) hfits (by omega)
        rw [hstart, hend] at hloop
        exact hloop
      · cases htail : s.tail with
        | nil =>
            rw [htail, List.length_nil] at hroom
            omega
        | cons node rest =>
            rw [htail, List.length_cons] at hroom
            obtain ⟨calls, hloop⟩ := writeFileLoop_unaligned h.base rfl hint hlong hroom (by omega)
            rw [hend] at hloop
            exact ⟨calls, hloop⟩
    obtain ⟨calls, heq, hinside, hcov⟩ := hloop
    refine ⟨calls, ?_, hinside, hcov⟩
    rw [writeToFile_eq h (by omega), heq]

/-- The first stretch has to start at the position and has to reach the end of its block or of
the content. -/
theorem exportable_of_exports (h : Wf s) {calls : List WriteCall} (hexp : Exports s calls) :
    Exportable s := by
  obtain ⟨heq, hinside, hcov⟩ := hexp
  have hpos := h.position
  have hsize := h.size
  have hsmall := h.small.2
  have hmod := Nat.mod_lt s.position h.base
  have hsplit := Nat.div_add_mod s.position s.baseSize
  rw [Nat.mul_comm] at hsplit
  by_cases hempty : s.size = s.position
  · exact .inl hempty
  rw [writeToFile_eq h (by omega)] at heq
  have hreal : ((s.position : Int) % size64).toNat = s.position := by
    unfold size64
    omega
  cases htail : s.tail with
  | nil =>
      rw [htail, writeFileLoop, if_pos (by omega)] at heq
      cases heq
  | cons node rest =>
      rw [htail] at heq
      simp only [writeFileLoop, hreal,
        if_pos (show ((s.size - s.position : Nat) : Int) > 0 by omega)] at heq
      generalize hd : toInt (s.position % s.baseSize) = diff at heq
      generalize hl : (if ((s.size - s.position : Nat) : Int) > s.baseSize then (s.baseSize : Int)
        else ((s.size - s.position : Nat) : Int)) - diff = len at heq
      cases hrest : writeFileLoop s.baseSize rest (s.position / s.baseSize + 1)
          (s.position + len) ((s.size - s.position : Nat) - len) with
      | none =>
          rw [hrest] at heq
          cases heq
      | some later =>
          rw [hrest] at heq
          injection heq with hpair
          injection hpair with _ hcalls
          subst hcalls
          obtain ⟨hbase, hlen, hin⟩ := hinside _ (List.mem_cons_self ..)
          obtain ⟨hfirst, -, hcov⟩ := hcov
          dsimp only [WriteCall.stretch] at hbase hlen hin hfirst hcov
          have hexact : diff = (s.position % s.baseSize : Nat) := by omega
          by_cases hzero : s.position % s.baseSize = 0
          · exact .inr (.inl hzero)
          · refine .inr (.inr ⟨?_, ?_⟩)
            · by_contra hshort
              -- less than a block: something is left, and it does not start at the next block
              have hval : len = (s.size - s.position : Nat) - (s.position % s.baseSize : Nat) := by
                rw [← hl, if_neg (by omega), hexact]
              cases later with
              | nil =>
                  have hall : s.position + len.toNat = s.size := hcov
                  omega
              | cons c more =>
                  obtain ⟨hnext, -, -⟩ := hcov
                  have hnode : c.node = s.position / s.baseSize + 1 := writeFileLoop_head hrest
                  dsimp only [WriteCall.stretch] at hnext
                  rw [hnode, Nat.add_mul] at hnext
                  omega
            · exact toInt_eq_iff.mp (hd.trans hexact)

/-! ## The import -/

/-- A block at a time, the file is written to the array from the position on. -/
theorem readFileLoop_written (h : Wf s) {fuel : Nat} {content : List UInt8}
    (hfuel : content.length < fuel) (h53 : s.position + content.length < 2 ^ 53) :
    ∃ s', readFileLoop fuel s content = .done () s' ∧ Written s s' content := by
  induction fuel generalizing s content with
  | zero => omega
  | succ fuel ih =>
      have htake : (content.take s.baseSize).length = min s.baseSize content.length :=
        List.length_take
      have hdrop : (content.drop s.baseSize).length = content.length - s.baseSize :=
        List.length_drop
      have hbase := h.base
      obtain ⟨t, heq, ht⟩ := written_write_any h (content.take s.baseSize) (by omega)
      unfold readFileLoop
      rw [heq, Result.bind_done]
      by_cases hlast : content.length < s.baseSize
      · rw [if_pos hlast]
        rw [List.take_of_length_le (by omega)] at ht
        exact ⟨t, rfl, ht⟩
      · rw [if_neg hlast]
        have hpos := ht.position
        have hless : (content.drop s.baseSize).length < fuel := by omega
        obtain ⟨s', heq', hs'⟩ := ih ht.wf hless (by omega)
        refine ⟨s', heq', ?_⟩
        have hall := ht.trans h hs'
        rwa [List.take_append_drop] at hall

/-- A fresh array holds the file it has read. -/
theorem readFromFile_new {heap : Nat → Nat → UInt8} (hb : 0 < b) (hb53 : b < 2 ^ 53)
    {content : List UInt8} (h53 : content.length < 2 ^ 53) :
    ∃ s', (new b heap).readFromFile (some content) = .done true s' ∧ s'.content = content := by
  have hnew : Wf (new b heap) := wf_new hb hb53
  have hstart : (new b heap).position + content.length < 2 ^ 53 := by
    show 0 + content.length < 2 ^ 53
    omega
  obtain ⟨s', heq, hw⟩ := readFileLoop_written hnew (Nat.lt_succ_self _) hstart
  have hsize : s'.size = content.length := by
    have hmax : s'.size = max 0 (0 + content.length) := hw.size
    omega
  refine ⟨s', ?_, ?_⟩
  · unfold readFromFile
    dsimp only
    rw [heq]
    rfl
  · rw [ByteArray.content, hsize]
    exact hw.holds.slice

/-- The export hands over exactly the content behind the position, and the import of the file
into a fresh array of any block size gives an array with that content. -/
def FileRoundTrip (s : ByteArray) : Prop :=
  ∃ calls, Exports s calls ∧ fileOf s calls = s.content.drop s.position ∧
    ∀ b' heap', 0 < b' → b' < 2 ^ 53 → ∃ s',
      (new b' heap').readFromFile (some (fileOf s calls)) = .done true s' ∧
      s'.content = s.content.drop s.position

theorem file_round_trip (hb : 0 < b) (hb53 : b < 2 ^ 53)
    (h : (byteArraySys order b).Reaches Sized s) (h53 : s.size < 2 ^ 53) :
    FileRoundTrip s ↔ Exportable s := by
  have hwf : Wf s := (wf_inductive hb hb53).invariant h
  constructor
  · rintro ⟨calls, hexp, -⟩
    exact exportable_of_exports hwf hexp
  · intro hcond
    obtain ⟨calls, hexp⟩ := exports_of_exportable hwf hcond
    have hlen := hwf.length_content
    have hfile : fileOf s calls = s.content.drop s.position := by
      have hgather := hwf.gather_eq hexp.2.2 le_rfl
      rw [List.take_of_length_le (by rw [List.length_drop]; omega)] at hgather
      exact hgather
    refine ⟨calls, hexp, hfile, ?_⟩
    intro b' heap' hb' hb53'
    rw [hfile]
    exact readFromFile_new hb' hb53' (by rw [List.length_drop]; omega)

/-- Seven bytes in blocks of three, from the middle of the first. -/
theorem file_round_trip_middle : ∃ s, (byteArraySys .little 3).Reaches Sized s ∧
    s.position = 1 ∧ FileRoundTrip s := by
  obtain ⟨s, hs, h53, hpos, hcond⟩ := exists_reached (b := 3)
    [.write [1, 2, 3, 4, 5, 6, 7], .setPosition 1]
    (p := fun s => s.size < 2 ^ 53 ∧ s.position = 1 ∧ Exportable s) (by decide +kernel)
  exact ⟨s, hs, hpos, (file_round_trip (by decide) (by decide) hs h53).mpr hcond⟩

/-- Three bytes in a block of four, from the second: one byte is written, and the next block is
the null pointer. -/
theorem export_crashes : ∃ s, (byteArraySys .little 4).Reaches Sized s ∧ s.size < 2 ^ 53 ∧
    s.content.drop s.position = [2, 3] ∧ s.writeToFile true = .crash ∧ ¬ FileRoundTrip s := by
  obtain ⟨s, hs, h53, hcontent, hloop⟩ := exists_reached (b := 4)
    [.write [1, 2, 3], .setPosition 1]
    (p := fun s => s.size < 2 ^ 53 ∧ s.content.drop s.position = [2, 3] ∧
      writeFileLoop s.baseSize (s.nodes.drop (s.cur.getD s.nodes.length))
        (s.cur.getD s.nodes.length) s.position s.getReadSize = none)
    (by decide +kernel)
  have hcrash : s.writeToFile true = .crash := by
    unfold writeToFile
    dsimp only
    rw [if_pos rfl, hloop]
  refine ⟨s, hs, h53, hcontent, hcrash, ?_⟩
  rintro ⟨calls, hexp, -⟩
  have heq := hexp.1
  rw [hcrash] at heq
  cases heq

end Gxh.ByteArray
