import Gxh.ByteArray.Invariant

/-!
# Views of a byte array

The scatter lists of `getReadBuffers` and `getWriteBuffers`, and the reads that leave the array
alone.

* `Covers` says that a list of iovecs runs over a region of the content without a gap;
* `gather` is what the iovecs hold, and `Covers.gather_eq` reads it off the content;
* `views_agree` compares `getReadBuffers`, `toString` and `read`.
-/

namespace Gxh.ByteArray

variable {s : ByteArray} {b : Nat}

/-- `ByteArray::getReadBuffers(buffers, len)`: the iovecs pushed and the value returned. -/
def getReadBuffers (s : ByteArray) (len : Nat) : Result (List Iovec × Nat) :=
  let len := if len > s.getReadSize then s.getReadSize else len
  if len = 0 then .done ([], 0) s
  else
    match s.cur with
    | none => .crash
    | some i =>
        match buffersFrom (s.nodes.drop i) i (s.position % s.baseSize) len with
        | none => .crash
        | some buffers => .done (buffers, len) s

/-- `ByteArray::getReadBuffers(buffers, len, position)`. The bound on `len` is that of
`m_position`; the walk starts at the block of `position`. -/
def getReadBuffersAt (s : ByteArray) (len position : Nat) : Result (List Iovec × Nat) :=
  let len := if len > s.getReadSize then s.getReadSize else len
  if len = 0 then .done ([], 0) s
  else
    let count := position / s.baseSize
    match buffersFrom (s.nodes.drop count) count (position % s.baseSize) len with
    | none => .crash
    | some buffers => .done (buffers, len) s

/-- The logical content: the bytes before `m_size`. -/
def content (s : ByteArray) : List UInt8 := s.bytes.take s.size

/-! ## Regions -/

/-- The bytes of one iovec. -/
def Iovec.slice (nodes : List (List UInt8)) (v : Iovec) : List UInt8 :=
  ((nodes.getD v.node []).drop v.base).take v.len

/-- The bytes of a scatter list, in order. -/
def gather (nodes : List (List UInt8)) (iovs : List Iovec) : List UInt8 :=
  iovs.flatMap (Iovec.slice nodes)

/-- The iovecs run from index `p` to index `q` without a gap, each inside its block. -/
def Covers (b : Nat) : Nat → Nat → List Iovec → Prop
  | p, q, [] => p = q
  | p, q, v :: rest =>
      v.node * b + v.base = p ∧ v.base + v.len ≤ b ∧ Covers b (p + v.len) q rest

theorem Covers.le {p q : Nat} {iovs : List Iovec} (h : Covers b p q iovs) : p ≤ q := by
  induction iovs generalizing p with
  | nil =>
      have heq : p = q := h
      exact heq.le
  | cons v rest ih =>
      obtain ⟨-, -, hrest⟩ := h
      have := ih hrest
      omega

/-- No iovec reaches behind the region. -/
theorem Covers.bound {p q : Nat} {iovs : List Iovec} (h : Covers b p q iovs) :
    ∀ v ∈ iovs, v.node * b + v.base + v.len ≤ q := by
  induction iovs generalizing p with
  | nil => simp
  | cons v rest ih =>
      obtain ⟨hbase, -, hrest⟩ := h
      intro w hw
      rcases List.mem_cons.mp hw with rfl | hw
      · have := hrest.le
        omega
      · exact ih hrest w hw

/-- A stretch inside one block, seen in the row of all bytes. -/
theorem Blocks.slice {nodes : List (List UInt8)} (h : Blocks b nodes) {i npos n : Nat}
    (hfit : npos + n ≤ b) (hi : i < nodes.length) :
    ((nodes.getD i []).drop npos).take n = (nodes.flatten.drop (i * b + npos)).take n := by
  induction nodes generalizing i with
  | nil =>
      simp only [List.length_nil] at hi
      omega
  | cons node rest ih =>
      obtain ⟨hnode, hrest⟩ := h.of_cons
      rw [List.flatten_cons]
      cases i with
      | zero =>
          have hlen : (node.drop npos).length = b - npos := by rw [List.length_drop, hnode]
          rw [List.getD_cons_zero, Nat.zero_mul, Nat.zero_add,
            List.drop_append_of_le_length (by omega), List.take_append_of_le_length (by omega)]
      | succ i =>
          have hskip : (i + 1) * b + npos = node.length + (i * b + npos) := by
            rw [hnode, Nat.add_mul]
            omega
          have hnil : node.drop (node.length + (i * b + npos)) = [] :=
            List.drop_of_length_le (by omega)
          rw [List.length_cons] at hi
          rw [List.getD_cons_succ, ih hrest (by omega), hskip, List.drop_append, hnil,
            List.nil_append, Nat.add_sub_cancel_left]

/-- An index inside the chain is in one of its blocks. -/
theorem block_lt {nodes : List (List UInt8)} {i npos n : Nat}
    (hfit : i * b + npos + n ≤ nodes.length * b) (hn : 0 < n) : i < nodes.length := by
  by_contra hge
  have hmul : nodes.length * b ≤ i * b := Nat.mul_le_mul_right b (by omega)
  omega

/-- What the iovecs hold are the bytes of the region. -/
theorem Covers.gather_eq {nodes : List (List UInt8)} (hblocks : Blocks b nodes) {p q : Nat}
    {iovs : List Iovec} (h : Covers b p q iovs) (hq : q ≤ nodes.length * b) :
    gather nodes iovs = (nodes.flatten.drop p).take (q - p) := by
  induction iovs generalizing p with
  | nil =>
      have heq : p = q := h
      rw [heq, Nat.sub_self, List.take_zero]
      rfl
  | cons v rest ih =>
      obtain ⟨hbase, hin, hrest⟩ := h
      have hle := hrest.le
      have hslice : v.slice nodes = (nodes.flatten.drop p).take v.len := by
        by_cases hn : v.len = 0
        · rw [Iovec.slice, hn, List.take_zero, List.take_zero]
        · rw [← hbase]
          have hroom : v.node * b + v.base + v.len ≤ nodes.length * b := by omega
          exact hblocks.slice hin (block_lt hroom (Nat.pos_of_ne_zero hn))
      have hsplit : q - p = v.len + (q - (p + v.len)) := by omega
      show v.slice nodes ++ gather nodes rest = _
      rw [ih hrest, hslice, hsplit, List.take_add, List.drop_drop]

theorem buffersFrom_covers {nodes : List (List UInt8)} (hb : 0 < b) (h : Blocks b nodes)
    {i npos n : Nat} (hpos : npos < b) (hfit : npos + n ≤ nodes.length * b) (hn : 0 < n) :
    ∃ iovs, buffersFrom nodes i npos n = some iovs ∧
      Covers b (i * b + npos) (i * b + npos + n) iovs := by
  induction nodes generalizing i npos n with
  | nil =>
      simp only [List.length_nil, Nat.zero_mul] at hfit
      omega
  | cons node rest ih =>
      obtain ⟨hnode, hrest⟩ := h.of_cons
      rw [List.length_cons, Nat.add_mul, Nat.one_mul] at hfit
      simp only [buffersFrom, hnode]
      by_cases hcap : n ≤ b - npos
      · rw [if_pos hcap]
        refine ⟨_, rfl, rfl, ?_, rfl⟩
        show npos + n ≤ b
        omega
      · rw [if_neg hcap]
        -- the rest of this block, and then from the start of the next one
        obtain ⟨iovs, heq, hcov⟩ := ih hrest (i := i + 1) hb
          (show 0 + (n - (b - npos)) ≤ rest.length * b by omega) (by omega)
        have hnext : (i + 1) * b + 0 = i * b + npos + (b - npos) := by
          rw [Nat.add_mul]
          omega
        have hend : i * b + npos + (b - npos) + (n - (b - npos)) = i * b + npos + n := by omega
        rw [hnext, hend] at hcov
        rw [heq]
        refine ⟨_, rfl, rfl, ?_, hcov⟩
        show npos + (b - npos) ≤ b
        omega

/-- The scatter list for `n` bytes at index `p` of a well-formed array. -/
theorem Wf.buffers (h : Wf s) {p n : Nat} (hn : 0 < n) (hfit : p + n ≤ s.capacity) :
    ∃ iovs, buffersFrom (s.nodes.drop (p / s.baseSize)) (p / s.baseSize) (p % s.baseSize) n =
        some iovs ∧ Covers s.baseSize p (p + n) iovs := by
  have hsplit := Nat.div_add_mod p s.baseSize
  have hmul := h.capacity
  have hblocks : Blocks s.baseSize (s.nodes.drop (p / s.baseSize)) :=
    fun x hx => h.blocks x (List.mem_of_mem_drop hx)
  have hroom : p % s.baseSize + n ≤ (s.nodes.drop (p / s.baseSize)).length * s.baseSize := by
    rw [List.length_drop, Nat.sub_mul, Nat.mul_comm (p / s.baseSize)]
    omega
  obtain ⟨iovs, heq, hcov⟩ := buffersFrom_covers (i := p / s.baseSize) h.base hblocks
    (Nat.mod_lt p h.base) hroom hn
  rw [Nat.mul_comm, hsplit] at hcov
  exact ⟨iovs, heq, hcov⟩

theorem Wf.gather_eq (h : Wf s) {p q : Nat} {iovs : List Iovec}
    (hcov : Covers s.baseSize p q iovs) (hq : q ≤ s.size) :
    gather s.nodes iovs = (s.content.drop p).take (q - p) := by
  have hsize := h.size
  rw [hcov.gather_eq h.blocks (by rw [← h.capacity]; omega), content, bytes, List.drop_take,
    List.take_take, Nat.min_eq_left (by omega)]

/-! ## Reading without moving -/

theorem Wf.length_content (h : Wf s) : s.content.length = s.size := by
  have := h.size
  rw [content, List.length_take, h.length_bytes]
  omega

theorem slice_content {p n : Nat} (hfit : p + n ≤ s.size) :
    (s.content.drop p).take n = (s.bytes.drop p).take n := by
  rw [content, List.drop_take, List.take_take, Nat.min_eq_left (by omega)]

/-- The blocks from number `i` on hold the bytes from index `i * b` on. -/
theorem Blocks.flatten_drop {nodes : List (List UInt8)} (h : Blocks b nodes) (i : Nat) :
    (nodes.drop i).flatten = nodes.flatten.drop (i * b) := by
  induction i generalizing nodes with
  | zero => simp
  | succ i ih =>
      cases nodes with
      | nil => simp
      | cons node rest =>
          obtain ⟨hnode, hrest⟩ := h.of_cons
          rw [List.drop_succ_cons, ih hrest, List.flatten_cons, Nat.add_mul, Nat.one_mul,
            Nat.add_comm, ← hnode, List.drop_append, List.drop_of_length_le (Nat.le_add_right _ _),
            List.nil_append, Nat.add_sub_cancel_left]

/-- A read that is too long for the chain ends at the null pointer. -/
theorem readNodes_none {nodes : List (List UInt8)} (h : Blocks b nodes) {npos n : Nat}
    (hpos : npos ≤ b) (hlong : nodes.length * b < npos + n) : readNodes nodes npos n = none := by
  induction nodes generalizing npos n with
  | nil => rfl
  | cons node rest ih =>
      obtain ⟨hnode, hrest⟩ := h.of_cons
      rw [List.length_cons, Nat.add_mul, Nat.one_mul] at hlong
      simp only [readNodes, hnode]
      rw [if_neg (by omega), ih hrest (Nat.zero_le _) (by omega), Option.map_none]

/-- Where a read that starts at offset `npos` of the current block finds its bytes. -/
def origin (s : ByteArray) (npos : Nat) : Nat := s.position / s.baseSize * s.baseSize + npos

theorem origin_position (s : ByteArray) : s.origin (s.position % s.baseSize) = s.position := by
  rw [origin, Nat.mul_comm]
  exact Nat.div_add_mod _ _

/-- The walk of `read` delivers what stands behind its origin, if the chain is long enough. -/
theorem readFrom_eq (h : Wf s) {npos n : Nat} (hpos : npos < s.baseSize) (hn : 0 < n)
    (hfit : s.origin npos + n ≤ s.capacity) :
    s.readFrom npos n = some ((s.bytes.drop (s.origin npos)).take n, (npos + n) / s.baseSize) := by
  have hmul := h.capacity
  have hsplit := Nat.div_add_mod s.position s.baseSize
  have hmod := Nat.mod_lt s.position h.base
  have hle : s.position ≤ s.capacity := h.position.trans h.size
  unfold origin at hfit ⊢
  rw [hmul] at hfit
  have hblock : s.position / s.baseSize < s.nodes.length := block_lt hfit hn
  have hend : s.position ≠ s.capacity := by
    intro heq
    rw [heq, hmul, Nat.mul_div_cancel _ h.base] at hblock
    omega
  have hroom : npos + n ≤ s.tail.length * s.baseSize := by
    rw [tail, List.length_drop, Nat.sub_mul]
    omega
  unfold readFrom
  rw [h.cur_eq (by omega)]
  dsimp only
  rw [if_neg (by omega), show s.nodes.drop (s.position / s.baseSize) = s.tail from rfl,
    readNodes_eq h.base h.tail_blocks hpos hroom hn, tail, h.blocks.flatten_drop, List.drop_drop]
  rfl

/-- A read at the position of `m_cur` itself. -/
theorem readAt_position (h : Wf s) {n : Nat} (hn : 0 < n) (hfit : s.position + n ≤ s.size) :
    s.readAt n s.position = .done ((s.content.drop s.position).take n) s := by
  have hsize := h.size
  have horigin := origin_position s
  unfold readAt
  rw [show sub64 s.size s.position = s.getReadSize from rfl, h.getReadSize_eq,
    if_neg (by omega), readFrom_eq h (Nat.mod_lt _ h.base) hn (by omega), horigin,
    slice_content hfit]

theorem toString_eq (h : Wf s) : s.toString = .done (s.content.drop s.position) s := by
  have hlen := h.length_content
  have hpos := h.position
  unfold toString
  rw [h.getReadSize_eq]
  split
  · rw [List.drop_of_length_le (by omega)]
  · rw [readAt_position h (by omega) (by omega), List.take_of_length_le]
    rw [List.length_drop]
    omega

theorem getReadBuffers_eq (h : Wf s) (len : Nat) :
    ∃ iovs, s.getReadBuffers len = .done (iovs, min len (s.size - s.position)) s ∧
      Covers s.baseSize s.position (s.position + min len (s.size - s.position)) iovs := by
  have hsize := h.size
  have hpos := h.position
  have hmin : (if len > s.size - s.position then s.size - s.position else len) =
      min len (s.size - s.position) := by
    split <;> omega
  unfold getReadBuffers
  dsimp only
  rw [h.getReadSize_eq, hmin]
  generalize hn : min len (s.size - s.position) = n
  by_cases hzero : n = 0
  · rw [if_pos hzero, hzero]
    exact ⟨[], rfl, rfl⟩
  · obtain ⟨iovs, heq, hcov⟩ := h.buffers (p := s.position) (n := n) (by omega) (by omega)
    rw [if_neg hzero, h.cur_eq (by omega)]
    dsimp only
    rw [heq]
    exact ⟨iovs, rfl, hcov⟩

/-- The iovecs for `len` more bytes, in the chain made long enough for them. -/
theorem getWriteBuffers_eq (h : Wf s) {len : Nat} (h53 : s.position + len < 2 ^ 53)
    (hlen : 0 < len) :
    ∃ iovs, s.getWriteBuffers len = .done iovs (s.addCapacity len) ∧
      Covers s.baseSize s.position (s.position + len) iovs := by
  obtain ⟨-, -, hwf, -, hpos, -, -, hbase, hroom⟩ := addCapacity_spec h h53 hlen
  obtain ⟨iovs, heq, hcov⟩ := hwf.buffers hlen hroom
  refine ⟨iovs, ?_, ?_⟩
  · unfold getWriteBuffers
    dsimp only
    rw [if_neg (by omega), hwf.cur_eq (by omega)]
    dsimp only
    rw [hpos, heq]
  · rw [hbase] at hcov
    exact hcov

/-- The scatter list, the string and `read` show the same bytes, and neither of the first two
moves anything. -/
theorem views_agree {order : Endian} (hb : 0 < b) (h53 : b < 2 ^ 53)
    (h : (byteArraySys order b).Reaches Sized s) (len : Nat) :
    ∃ iovs str, s.getReadBuffers len = .done (iovs, min len s.getReadSize) s ∧
      s.toString = .done str s ∧ str.length = s.getReadSize ∧
      gather s.nodes iovs = str.take (min len s.getReadSize) ∧
      (0 < min len s.getReadSize →
        ∃ s', s.read (min len s.getReadSize) = .done (gather s.nodes iovs) s') := by
  have hwf : Wf s := (wf_inductive hb h53).invariant h
  have hpos := hwf.position
  obtain ⟨iovs, hbufs, hcov⟩ := getReadBuffers_eq hwf len
  have hgather := hwf.gather_eq hcov (by omega)
  rw [Nat.add_sub_cancel_left] at hgather
  rw [hwf.getReadSize_eq]
  refine ⟨iovs, _, hbufs, toString_eq hwf, ?_, hgather, ?_⟩
  · rw [List.length_drop, hwf.length_content]
  · intro hn
    rw [read_eq hwf hn (by omega), hgather, slice_content (by omega)]
    exact ⟨_, rfl⟩

/-- A trace from an array of zeros, run through, ends in a reachable state. -/
theorem exists_reached {b : Nat} (l : List Op) {p : ByteArray → Prop} [DecidablePred p]
    (h : (((byteArraySys .little b).exec sizedTest (new b fun _ _ => 0) l).map
      fun s => decide (p s)) = some true) :
    ∃ s, (byteArraySys .little b).Reaches Sized s ∧ p s := by
  have hinit : (byteArraySys .little b).init (new b fun _ _ => 0) := ⟨fun _ _ => 0, rfl⟩
  obtain ⟨s, hs, htest⟩ := TSys.exists_reaches sized_of_test hinit h
  exact ⟨s, hs, of_decide_eq_true htest⟩

/-- Four of five bytes in blocks of two, from the middle of the first block. -/
theorem views_agree_straddle : ∃ s, (byteArraySys .little 2).Reaches Sized s ∧
    s.getReadSize = 4 ∧ ∃ iovs str, s.getReadBuffers 3 = .done (iovs, 3) s ∧
      s.toString = .done str s ∧ str.length = 4 ∧ gather s.nodes iovs = str.take 3 ∧
      (0 < 3 → ∃ s', s.read 3 = .done (gather s.nodes iovs) s') := by
  obtain ⟨s, hs, hsize⟩ := exists_reached (b := 2) [.write [1, 2, 3, 4, 5], .setPosition 1]
    (p := fun s => s.getReadSize = 4) (by decide +kernel)
  have hview := views_agree (by decide) (by decide) hs 3
  rw [hsize, show min 3 4 = 3 from rfl] at hview
  exact ⟨s, hs, hsize, hview⟩

end Gxh.ByteArray
