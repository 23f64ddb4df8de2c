import Gxh.ByteArray.Codec
import Gxh.Lib.TSys

/-!
# The representation of a byte array

* `Wf` is the representation invariant: blocks of one size, the capacity they make up,
  `m_position ≤ m_size ≤ m_capacity`, and `m_cur` at the block of the position;
* `bytes` is what the blocks hold in a row, and `write_eq`, `read_eq`, `setPosition_eq` say
  what the operations do to it;
* `Keeps` is what every operation does, closed under sequencing.
-/

namespace Gxh.ByteArray

variable {s s' : ByteArray} {b : Nat}

/-! ## The loops over the blocks -/

/-- All blocks have `b` bytes. -/
def Blocks (b : Nat) (nodes : List (List UInt8)) : Prop := ∀ node ∈ nodes, node.length = b

theorem Blocks.of_cons {node : List UInt8} {rest : List (List UInt8)}
    (h : Blocks b (node :: rest)) : node.length = b ∧ Blocks b rest :=
  List.forall_mem_cons.mp h

theorem Blocks.length_flatten {nodes : List (List UInt8)} (h : Blocks b nodes) :
    nodes.flatten.length = nodes.length * b := by
  induction nodes with
  | nil => simp
  | cons node rest ih =>
      obtain ⟨hnode, hrest⟩ := h.of_cons
      rw [List.flatten_cons, List.length_append, ih hrest, hnode, List.length_cons, Nat.add_mul]
      omega

/-- The steps `m_cur` makes for `n` bytes from offset `npos`. -/
theorem steps_eq {npos n : Nat} (hle : npos + n ≤ b) (hb : 0 < b) :
    (if b = npos + n then 1 else 0) = (npos + n) / b := by
  split
  · rename_i h
    rw [← h, Nat.div_self hb]
  · rw [Nat.div_eq_of_lt (by omega)]

theorem steps_succ {npos n : Nat} (hb : 0 < b) (hpos : npos < b) (hlt : b - npos < n) :
    (0 + (n - (b - npos))) / b + 1 = (npos + n) / b := by
  have hsum : npos + n = 0 + (n - (b - npos)) + b := by omega
  rw [hsum, Nat.add_div_right _ hb]

theorem writeNodes_eq {nodes : List (List UInt8)} (hb : 0 < b) (h : Blocks b nodes) {npos : Nat}
    (hpos : npos < b) {buf : List UInt8} (hfit : npos + buf.length ≤ nodes.length * b)
    (hbuf : 0 < buf.length) :
    ∃ nodes', writeNodes nodes npos buf = some (nodes', (npos + buf.length) / b) ∧
      nodes'.flatten = splice nodes.flatten npos buf ∧ Blocks b nodes' ∧
      nodes'.length = nodes.length := by
  induction nodes generalizing npos buf with
  | nil =>
      simp only [List.length_nil, Nat.zero_mul] at hfit
      omega
  | cons node rest ih =>
      obtain ⟨hnode, hrest⟩ := h.of_cons
      rw [List.length_cons, Nat.add_mul, Nat.one_mul] at hfit
      by_cases hcap : buf.length ≤ b - npos
      · -- the rest of the data fits into this block
        have hin : npos + buf.length ≤ node.length := by omega
        refine ⟨splice node npos buf :: rest, ?_, ?_, ?_, rfl⟩
        · simp only [writeNodes, hnode]
          rw [if_pos hcap, steps_eq (by omega) hb]
        · rw [List.flatten_cons, List.flatten_cons, splice_append hin]
        · intro x hx
          rcases List.mem_cons.mp hx with rfl | hx
          · rw [length_splice hin, hnode]
          · exact hrest x hx
      · have htake : (buf.take (b - npos)).length = b - npos := by
          rw [List.length_take]
          omega
        have hdrop : (buf.drop (b - npos)).length = buf.length - (b - npos) := List.length_drop
        have hfit' : 0 + (buf.drop (b - npos)).length ≤ rest.length * b := by omega
        obtain ⟨nodes', heq, hflat, hblocks, hlen⟩ := ih hrest hb hfit' (by omega)
        have hfill : npos + (buf.take (b - npos)).length = node.length := by omega
        refine ⟨splice node npos (buf.take (b - npos)) :: nodes', ?_, ?_, ?_, ?_⟩
        · simp only [writeNodes, hnode]
          rw [if_neg hcap, heq, hdrop, Option.map_some, steps_succ hb hpos (by omega)]
        · rw [List.flatten_cons, List.flatten_cons, hflat]
          conv_rhs => rw [← List.take_append_drop (b - npos) buf]
          exact (splice_append_split hfill).symm
        · intro x hx
          rcases List.mem_cons.mp hx with rfl | hx
          · rw [length_splice (by omega), hnode]
          · exact hblocks x hx
        · rw [List.length_cons, List.length_cons, hlen]

theorem readNodes_eq {nodes : List (List UInt8)} (hb : 0 < b) (h : Blocks b nodes) {npos n : Nat}
    (hpos : npos < b) (hfit : npos + n ≤ nodes.length * b) (hn : 0 < n) :
    readNodes nodes npos n = some ((nodes.flatten.drop npos).take n, (npos + n) / b) := by
  induction nodes generalizing npos n with
  | nil =>
      simp only [List.length_nil, Nat.zero_mul] at hfit
      omega
  | cons node rest ih =>
      obtain ⟨hnode, hrest⟩ := h.of_cons
      rw [List.length_cons, Nat.add_mul, Nat.one_mul] at hfit
      have hskip : (node ++ rest.flatten).drop npos = node.drop npos ++ rest.flatten :=
        List.drop_append_of_le_length (by omega)
      have hleft : (node.drop npos).length = b - npos := by rw [List.length_drop, hnode]
      rw [List.flatten_cons, hskip]
      simp only [readNodes, hnode]
      by_cases hcap : n ≤ b - npos
      · rw [if_pos hcap, steps_eq (by omega) hb, List.take_append_of_le_length (by omega)]
      · rw [if_neg hcap, ih hrest hb (by omega) (by omega), Option.map_some, List.drop_zero,
          steps_succ hb hpos (by omega), List.take_append, hleft,
          List.take_of_length_le (show (node.drop npos).length ≤ n by omega)]

/-- The walk ends at the block of the position. -/
theorem seekNodes_eq {nodes : List (List UInt8)} (hb : 0 < b) (h : Blocks b nodes) {v : Nat}
    (hne : nodes ≠ []) (hfit : v ≤ nodes.length * b) : seekNodes nodes v = some (v / b) := by
  induction nodes generalizing v with
  | nil => exact absurd rfl hne
  | cons node rest ih =>
      obtain ⟨hnode, hrest⟩ := h.of_cons
      rw [List.length_cons, Nat.add_mul, Nat.one_mul] at hfit
      simp only [seekNodes, hnode]
      by_cases hgt : v > b
      · have hrne : rest ≠ [] := by
          rintro rfl
          simp only [List.length_nil, Nat.zero_mul] at hfit
          omega
        have hdiv : (v - b) / b + 1 = v / b := by
          rw [← Nat.add_div_right _ hb]
          congr 1
          omega
        rw [if_pos hgt, ih hrest hrne (by omega), Option.map_some, hdiv]
      · rw [if_neg hgt]
        have hsteps : (if b = 0 + v then 1 else 0) = (0 + v) / b := steps_eq (by omega) hb
        rw [Nat.zero_add] at hsteps
        rw [← hsteps]
        simp only [eq_comm]

/-! ## The invariant -/

/-- Where `m_cur` points at position `p`. -/
def curAt (s : ByteArray) (p : Nat) : Option Nat :=
  if p = s.capacity then none else some (p / s.baseSize)

structure Wf (s : ByteArray) : Prop where
  base : 0 < s.baseSize
  blocks : Blocks s.baseSize s.nodes
  root : s.nodes ≠ []
  capacity : s.capacity = s.nodes.length * s.baseSize
  position : s.position ≤ s.size
  size : s.size ≤ s.capacity
  cur : s.cur = s.curAt s.position
  small : s.baseSize < 2 ^ 53 ∧ s.capacity < 2 ^ 54

/-- What the blocks hold in a row. -/
def bytes (s : ByteArray) : List UInt8 := s.nodes.flatten

theorem Wf.length_bytes (h : Wf s) : s.bytes.length = s.capacity := by
  rw [bytes, h.blocks.length_flatten, h.capacity]

/-- The block number behind `p` bytes is null exactly at the end of the chain. -/
theorem Wf.ptr_eq (h : Wf s) {p : Nat} (hp : p ≤ s.capacity) :
    s.ptr (p / s.baseSize) = s.curAt p := by
  have hcap := h.capacity
  unfold ptr curAt
  by_cases hend : p = s.capacity
  · have hdiv : p / s.baseSize = s.nodes.length := by
      rw [hend, hcap, Nat.mul_div_cancel _ h.base]
    rw [if_pos hend, hdiv, if_neg (by omega)]
  · have hlt : p / s.baseSize < s.nodes.length := by
      rw [Nat.div_lt_iff_lt_mul h.base]
      omega
    rw [if_neg hend, if_pos hlt]

/-- A chain moved to another position. -/
def seek (s : ByteArray) (p : Nat) : ByteArray := { s with position := p, cur := s.curAt p }

theorem Wf.seek (h : Wf s) {p : Nat} (hp : p ≤ s.size) : Wf (s.seek p) :=
  ⟨h.base, h.blocks, h.root, h.capacity, hp, h.size, rfl, h.small⟩

theorem Wf.seek_position (h : Wf s) : s.seek s.position = s := by
  unfold ByteArray.seek
  rw [← h.cur]

@[simp] theorem seek_seek (s : ByteArray) (p q : Nat) : (s.seek p).seek q = s.seek q := rfl

@[simp] theorem seek_position (s : ByteArray) (p : Nat) : (s.seek p).position = p := rfl

@[simp] theorem seek_size (s : ByteArray) (p : Nat) : (s.seek p).size = s.size := rfl

@[simp] theorem seek_capacity (s : ByteArray) (p : Nat) : (s.seek p).capacity = s.capacity := rfl

theorem wf_new {heap : Nat → Nat → UInt8} (hb : 0 < b) (h53 : b < 2 ^ 53) : Wf (new b heap) := by
  refine ⟨hb, ?_, by simp [new], by simp [new], le_rfl, ?_, ?_, h53, ?_⟩
  · intro node hnode
    rw [List.mem_singleton.mp hnode]
    simp [new, newNode]
  · exact Nat.zero_le _
  · have hne : 0 ≠ b := by omega
    simp [new, curAt, hne]
  · show b < 2 ^ 54
    omega

theorem Wf.getReadSize_eq (h : Wf s) : s.getReadSize = s.size - s.position := by
  have := h.size
  have := h.small.2
  exact sub64_of_le (by unfold size64; omega) h.position

theorem Wf.getCapacity_eq (h : Wf s) : s.getCapacity = s.capacity - s.position := by
  have := h.size
  have := h.position
  have := h.small.2
  exact sub64_of_le (by unfold size64; omega) (by omega)

/-! ## Room for more -/

/-- The least whole number of blocks for `n` bytes, as a number of bytes. -/
def roundUp (b n : Nat) : Nat := (n + b - 1) / b * b

theorem le_roundUp (hb : 0 < b) (n : Nat) : n ≤ roundUp b n := by
  have hsplit := Nat.div_add_mod (n + b - 1) b
  have hmod := Nat.mod_lt (n + b - 1) hb
  unfold roundUp
  rw [Nat.mul_comm]
  omega

theorem roundUp_lt (hb : 0 < b) (n : Nat) : roundUp b n < n + b := by
  have := Nat.div_mul_le_self (n + b - 1) b
  unfold roundUp
  omega

theorem roundUp_le (hb : 0 < b) {n k : Nat} (h : n ≤ k * b) : roundUp b n ≤ k * b := by
  have hdiv : (n + b - 1) / b < k + 1 := by
    rw [Nat.div_lt_iff_lt_mul hb, Nat.add_mul]
    omega
  exact Nat.mul_le_mul_right b (by omega)

theorem roundUp_mono {n m : Nat} (h : n ≤ m) : roundUp b n ≤ roundUp b m :=
  Nat.mul_le_mul_right b (Nat.div_le_div_right (by omega))

theorem roundUp_add_mul (hb : 0 < b) (n k : Nat) : roundUp b (n + k * b) = roundUp b n + k * b := by
  unfold roundUp
  rw [show n + k * b + b - 1 = n + b - 1 + k * b by omega, Nat.add_mul_div_right _ _ hb,
    Nat.add_mul]

/-- The chain after `addCapacity(size)`: enough blocks for `size` bytes from the position on,
the bytes it had, and `m_cur` at the block of the position even if there was none. -/
theorem addCapacity_spec (h : Wf s) {size : Nat} (h53 : s.position + size < 2 ^ 53)
    (hsize : 0 < size) :
    ∃ new, (s.addCapacity size).bytes = s.bytes ++ new ∧ Wf (s.addCapacity size) ∧
      (s.addCapacity size).capacity = max s.capacity (roundUp s.baseSize (s.position + size)) ∧
      (s.addCapacity size).position = s.position ∧ (s.addCapacity size).size = s.size ∧
      (s.addCapacity size).endian = s.endian ∧ (s.addCapacity size).baseSize = s.baseSize ∧
      s.position + size ≤ (s.addCapacity size).capacity := by
  have hcap := h.getCapacity_eq
  have hle : s.position ≤ s.capacity := h.position.trans h.size
  have hmul := h.capacity
  unfold addCapacity
  rw [if_neg (by omega)]
  dsimp only
  rw [hcap]
  split
  · rename_i hroom
    have hround : roundUp s.baseSize (s.position + size) ≤ s.capacity := by
      rw [hmul]
      exact roundUp_le h.base (by omega)
    refine ⟨[], by simp, h, ?_, rfl, rfl, rfl, rfl, by omega⟩
    rw [Nat.max_eq_left hround]
  · rename_i hroom
    have hcount : ceilQuot (size - (s.capacity - s.position)) s.baseSize * s.baseSize =
        roundUp s.baseSize (size - (s.capacity - s.position)) := by
      rw [ceilQuot_eq (by omega) h.base]
      rfl
    -- what is missing makes so many whole blocks
    generalize hc : ceilQuot (size - (s.capacity - s.position)) s.baseSize = count at hcount ⊢
    have hneed := le_roundUp h.base (size - (s.capacity - s.position))
    have hover := roundUp_lt h.base (size - (s.capacity - s.position))
    have hpos : count ≠ 0 := by
      rintro rfl
      omega
    have hnew : roundUp s.baseSize (s.position + size) = s.capacity + count * s.baseSize := by
      rw [hcount, show s.position + size =
        size - (s.capacity - s.position) + s.nodes.length * s.baseSize by omega,
        roundUp_add_mul h.base]
      omega
    have hsmall := h.small
    have hsz := h.size
    refine ⟨_, List.flatten_append, ⟨h.base, ?_, ?_, ?_, h.position, ?_, ?_, hsmall.1, ?_⟩,
      ?_, rfl, rfl, rfl, rfl, ?_⟩
    · intro node hnode
      rcases List.mem_append.mp hnode with hold | hnew
      · exact h.blocks node hold
      · obtain ⟨i, -, rfl⟩ := List.mem_map.mp hnew
        simp [newNode]
    · simp [h.root]
    · show s.capacity + count * s.baseSize = _
      rw [List.length_append, List.length_map, List.length_range, Nat.add_mul, ← h.capacity]
    · show s.size ≤ s.capacity + count * s.baseSize
      omega
    · -- with no room left the position is at the first new block
      show (if s.capacity - s.position = 0 then _ else s.cur) = _
      have hnot : s.position ≠ s.capacity + count * s.baseSize := by omega
      rw [if_neg hpos]
      simp only [curAt]
      rw [if_neg hnot]
      split
      · have hend : s.position = s.capacity := by omega
        rw [hend, hmul, Nat.mul_div_cancel _ h.base]
      · rw [h.cur, curAt, if_neg (by omega)]
    · show s.capacity + count * s.baseSize < 2 ^ 54
      omega
    · show s.capacity + count * s.baseSize = _
      rw [hnew]
      omega
    · show s.position + size ≤ s.capacity + count * s.baseSize
      omega

/-! ## The operations on the bytes -/

/-- The chain from the block of the position on. -/
def tail (s : ByteArray) : List (List UInt8) := s.nodes.drop (s.position / s.baseSize)

theorem Wf.tail_blocks (h : Wf s) : Blocks s.baseSize s.tail :=
  fun x hx => h.blocks x (List.mem_of_mem_drop hx)

theorem Wf.div_le (h : Wf s) : s.position / s.baseSize ≤ s.nodes.length := by
  have hle : s.position ≤ s.capacity := h.position.trans h.size
  have hmul := h.capacity
  rw [Nat.div_le_iff_le_mul_add_pred h.base, Nat.mul_comm]
  omega

/-- The blocks before it and the offset in it make up the position. -/
theorem Wf.length_before (h : Wf s) :
    (s.nodes.take (s.position / s.baseSize)).flatten.length + s.position % s.baseSize =
      s.position := by
  have hblocks : Blocks s.baseSize (s.nodes.take (s.position / s.baseSize)) :=
    fun x hx => h.blocks x (List.mem_of_mem_take hx)
  rw [hblocks.length_flatten, List.length_take, Nat.min_eq_left h.div_le, Nat.mul_comm]
  exact Nat.div_add_mod _ _

theorem Wf.tail_room (h : Wf s) {n : Nat} (hfit : s.position + n ≤ s.capacity) :
    s.position % s.baseSize + n ≤ s.tail.length * s.baseSize := by
  have hmul := h.capacity
  have hsplit := Nat.div_add_mod s.position s.baseSize
  rw [tail, List.length_drop, Nat.sub_mul, Nat.mul_comm (s.position / s.baseSize)]
  omega

theorem Wf.steps (h : Wf s) (n : Nat) :
    s.position / s.baseSize + (s.position % s.baseSize + n) / s.baseSize =
      (s.position + n) / s.baseSize := by
  have hsplit := Nat.div_add_mod s.position s.baseSize
  conv_rhs => rw [← hsplit, Nat.add_assoc, Nat.mul_add_div h.base]

/-- Before the end of the chain `m_cur` is not null. -/
theorem Wf.cur_eq (h : Wf s) (hlt : s.position < s.capacity) :
    s.cur = some (s.position / s.baseSize) := by
  rw [h.cur, curAt, if_neg (by omega)]

theorem fill_eq (h : Wf s) {buf : List UInt8} (hfit : s.position + buf.length ≤ s.capacity)
    (hbuf : 0 < buf.length) :
    ∃ s', s.fill buf = .done () s' ∧ Wf s' ∧ s'.bytes = splice s.bytes s.position buf ∧
      s'.capacity = s.capacity ∧ s'.position = s.position + buf.length ∧
      s'.size = max s.size (s.position + buf.length) ∧ s'.endian = s.endian ∧
      s'.baseSize = s.baseSize := by
  obtain ⟨nodes, heq, hflat, hblocks, hlen⟩ := writeNodes_eq h.base h.tail_blocks
    (Nat.mod_lt s.position h.base) (h.tail_room hfit) hbuf
  have hlen' : (s.nodes.take (s.position / s.baseSize) ++ nodes).length = s.nodes.length := by
    have := h.div_le
    rw [List.length_append, hlen, List.length_take, tail, List.length_drop]
    omega
  have hmax : (if s.position + buf.length > s.size then s.position + buf.length else s.size) =
      max s.size (s.position + buf.length) := by
    split <;> omega
  unfold fill
  rw [h.cur_eq (by omega)]
  dsimp only
  rw [show s.nodes.drop (s.position / s.baseSize) = s.tail from rfl, heq]
  dsimp only
  rw [h.steps, hmax]
  refine ⟨_, rfl, ⟨h.base, ?_, ?_, ?_, ?_, ?_, ?_, h.small⟩, ?_, rfl, rfl, rfl, rfl, rfl⟩
  · intro x hx
    rcases List.mem_append.mp hx with hx | hx
    · exact h.blocks x (List.mem_of_mem_take hx)
    · exact hblocks x hx
  · have hroot := List.length_pos_of_ne_nil h.root
    refine List.ne_nil_of_length_pos ?_
    show 0 < (s.nodes.take (s.position / s.baseSize) ++ nodes).length
    omega
  · show s.capacity = (s.nodes.take (s.position / s.baseSize) ++ nodes).length * s.baseSize
    rw [hlen', h.capacity]
  · show s.position + buf.length ≤ max s.size (s.position + buf.length)
    omega
  · have := h.size
    show max s.size (s.position + buf.length) ≤ s.capacity
    omega
  · exact h.ptr_eq hfit
  · show (s.nodes.take (s.position / s.baseSize) ++ nodes).flatten = splice s.nodes.flatten _ _
    rw [List.flatten_append, hflat, ← splice_append_right, h.length_before, tail,
      ← List.flatten_append, List.take_append_drop]

/-- `write` fills in the data at the position, in a chain that is long enough. -/
theorem write_eq (h : Wf s) {buf : List UInt8} (h53 : s.position + buf.length < 2 ^ 53)
    (hbuf : 0 < buf.length) :
    ∃ s' new, s.write buf = .done () s' ∧ Wf s' ∧
      s'.bytes = splice (s.bytes ++ new) s.position buf ∧
      s'.capacity = max s.capacity (roundUp s.baseSize (s.position + buf.length)) ∧
      s'.position = s.position + buf.length ∧ s'.size = max s.size (s.position + buf.length) ∧
      s'.endian = s.endian ∧ s'.baseSize = s.baseSize := by
  obtain ⟨new, hbytes, hwf, hcap, hpos, hsize, hend, hbase, hroom⟩ := addCapacity_spec h h53 hbuf
  obtain ⟨s', heq, hwf', hbytes', hcap', hpos', hsize', hend', hbase'⟩ :=
    fill_eq hwf (by omega) hbuf
  have hwrite : s.write buf = (s.addCapacity buf.length).fill buf :=
    if_neg (List.ne_nil_of_length_pos hbuf)
  refine ⟨s', new, by rw [hwrite, heq], hwf', ?_, ?_, ?_, ?_, ?_, ?_⟩
  · rw [hbytes', hbytes, hpos]
  · rw [hcap', hcap]
  · rw [hpos', hpos]
  · rw [hsize', hsize, hpos]
  · rw [hend', hend]
  · rw [hbase', hbase]

theorem write_nil (s : ByteArray) : s.write [] = .done () s := rfl

/-- `read` of at least one byte returns the bytes at the position. -/
theorem read_eq (h : Wf s) {n : Nat} (hn : 0 < n) (hfit : s.position + n ≤ s.size) :
    s.read n = .done ((s.bytes.drop s.position).take n) (s.seek (s.position + n)) := by
  have hsize := h.size
  have hbytes : s.tail.flatten.drop (s.position % s.baseSize) = s.bytes.drop s.position := by
    have hbefore := h.length_before
    have hsplit : s.bytes = (s.nodes.take (s.position / s.baseSize)).flatten ++ s.tail.flatten := by
      rw [tail, ← List.flatten_append, List.take_append_drop]
      rfl
    have hnil : (s.nodes.take (s.position / s.baseSize)).flatten.drop s.position = [] :=
      List.drop_of_length_le (by omega)
    rw [hsplit, List.drop_append, hnil, List.nil_append]
    congr 1
    omega
  unfold read readFrom
  rw [h.getReadSize_eq, if_neg (by omega), h.cur_eq (by omega)]
  dsimp only
  rw [if_neg (by omega), show s.nodes.drop (s.position / s.baseSize) = s.tail from rfl,
    readNodes_eq h.base h.tail_blocks (Nat.mod_lt _ h.base) (h.tail_room (by omega)) hn]
  dsimp only
  rw [Option.bind_some, h.steps, h.ptr_eq (by omega), hbytes]
  rfl

/-- `read` of no byte reads through `m_cur` all the same. -/
theorem read_zero (h : Wf s) :
    s.read 0 = if s.position = s.capacity then .crash else .done [] s := by
  have hle : s.position ≤ s.capacity := h.position.trans h.size
  unfold read readFrom
  rw [if_neg (by omega), h.cur]
  by_cases hend : s.position = s.capacity
  · simp [curAt, hend]
  · have hptr := h.ptr_eq hle
    have hcur := h.cur
    simp only [curAt, if_neg hend] at hptr hcur ⊢
    simp only [if_true, Option.bind_some, Nat.add_zero, hptr]
    congr 1
    rw [← hcur]

theorem read_thrown (h : Wf s) {n : Nat} (hn : s.size < s.position + n) :
    s.read n = .thrown .notEnoughLen s := by
  have := h.position
  unfold read
  rw [h.getReadSize_eq, if_pos (by omega)]

theorem setPosition_eq (h : Wf s) {v : Nat} (hv : v ≤ s.capacity) :
    s.setPosition v = .done () ({ s with size := max s.size v }.seek v) := by
  unfold setPosition
  rw [if_neg (by omega), seekNodes_eq h.base h.blocks h.root (by rw [← h.capacity]; exact hv)]
  dsimp only
  rw [h.ptr_eq hv]
  have hmax : (if v > s.size then v else s.size) = max s.size v := by
    split <;> omega
  rw [hmax]
  rfl

/-! ## What every operation keeps -/

section Keeps

variable {α β : Type} {j k : Nat}

/-- An operation that ends well or in an exception leaves a well-formed array, at most `k`
bytes longer. -/
def Keeps (k : Nat) (op : ByteArray → Result α) : Prop :=
  ∀ s, Wf s → s.size + k < 2 ^ 53 → ∀ s', (op s).state = some s' → Wf s' ∧ s'.size ≤ s.size + k

theorem Keeps.bind {op : ByteArray → Result α} {f : α → ByteArray → Result β} (h : Keeps j op)
    (hf : ∀ a, Keeps k (f a)) : Keeps (j + k) fun s => (op s).bind f := by
  intro s hs h53 s' hs'
  dsimp only at hs'
  have hop := h s hs (by omega)
  cases hres : op s with
  | done a t =>
      simp only [hres, Result.bind_done] at hs'
      obtain ⟨ht, hsize⟩ := hop t (by rw [hres]; rfl)
      obtain ⟨hwf, hsize'⟩ := hf a t ht (by omega) s' hs'
      exact ⟨hwf, by omega⟩
  | thrown e t =>
      simp only [hres, Result.bind, Result.state, Option.some.injEq] at hs'
      subst hs'
      obtain ⟨ht, hsize⟩ := hop t (by rw [hres]; rfl)
      exact ⟨ht, by omega⟩
  | crash =>
      rw [hres] at hs'
      cases hs'

theorem keeps_done (f : ByteArray → α) : Keeps 0 fun s => .done (f s) s := by
  intro s hs _ s' hs'
  cases hs'
  exact ⟨hs, by omega⟩

theorem Keeps.map {op : ByteArray → Result α} (h : Keeps k op) (f : α → β) :
    Keeps k fun s => (op s).map f :=
  h.bind fun a => keeps_done fun _ => f a

theorem Keeps.mono {op : ByteArray → Result α} (h : Keeps j op) (hjk : j ≤ k) : Keeps k op := by
  intro s hs h53 s' hs'
  obtain ⟨hwf, hsize⟩ := h s hs (by omega) s' hs'
  exact ⟨hwf, by omega⟩

theorem keeps_write (buf : List UInt8) : Keeps buf.length fun s => s.write buf := by
  intro s hs h53 s' hs'
  dsimp only at hs'
  by_cases hbuf : buf = []
  · subst hbuf
    cases hs'
    exact ⟨hs, by simp⟩
  · have := hs.position
    obtain ⟨t, new, heq, hwf, -, -, -, hsize, -, -⟩ :=
      write_eq hs (by omega) (List.length_pos_of_ne_nil hbuf)
    rw [heq] at hs'
    cases hs'
    exact ⟨hwf, by omega⟩

theorem keeps_read (n : Nat) : Keeps 0 fun s => s.read n := by
  intro s hs _ s' hs'
  dsimp only at hs'
  by_cases hfit : s.size < s.position + n
  · rw [read_thrown hs hfit] at hs'
    cases hs'
    exact ⟨hs, by omega⟩
  · by_cases hn : n = 0
    · subst hn
      rw [read_zero hs] at hs'
      split at hs'
      · cases hs'
      · cases hs'
        exact ⟨hs, by omega⟩
    · rw [read_eq hs (by omega) (by omega)] at hs'
      cases hs'
      exact ⟨hs.seek (by omega), by simp⟩

theorem keeps_readAt (n position : Nat) : Keeps 0 fun s => s.readAt n position := by
  intro s hs _ s' hs'
  dsimp only [readAt] at hs'
  split at hs'
  · cases hs'
    exact ⟨hs, by omega⟩
  · split at hs'
    · cases hs'
    · cases hs'
      exact ⟨hs, by omega⟩

theorem keeps_toString : Keeps 0 toString := by
  intro s hs h53 s' hs'
  unfold toString at hs'
  split at hs'
  · cases hs'
    exact ⟨hs, by omega⟩
  · exact keeps_readAt _ _ s hs h53 s' hs'

theorem keeps_readFixed (order : Endian) (n : Nat) : Keeps 0 fun s => readFixed order n s := by
  intro s hs h53 s' hs'
  exact (keeps_read n).map _ s hs h53 s' hs'

theorem keeps_readVarint (bits count i result : Nat) :
    Keeps 0 fun s => readVarint bits count i result s := by
  induction count generalizing i result with
  | zero => exact keeps_done fun _ => result
  | succ count ih =>
      have hstep : Keeps (0 + 0) fun s => s.readFuint8.bind fun b s' =>
          if b < 0x80 then .done (result ||| (b.toNat <<< i) % 2 ^ bits) s'
          else readVarint bits count (i + 7)
            (result ||| ((b &&& 0x7F).toNat <<< i) % 2 ^ bits) s' := by
        refine Keeps.bind ((keeps_read 1).map _) fun b => ?_
        by_cases hb : b < 0x80
        · simp only [if_pos hb]
          exact keeps_done fun _ => _
        · simp only [if_neg hb]
          exact ih _ _
      exact hstep

theorem keeps_readNum (order : Endian) (kind : NumKind) :
    Keeps 0 fun s => s.readNum order kind := by
  cases kind with
  | fint8 => exact ((keeps_read 1).map _).map _
  | fuint8 => exact ((keeps_read 1).map _).map _
  | int32 => exact (((keeps_readVarint 32 5 0 0).map _).map _).map _
  | uint32 => exact ((keeps_readVarint 32 5 0 0).map _).map _
  | int64 => exact (((keeps_readVarint 64 10 0 0).map _).map _).map _
  | uint64 => exact ((keeps_readVarint 64 10 0 0).map _).map _
  | _ => exact ((keeps_readFixed order _).map _).map _

theorem keeps_readString (order : Endian) (kind : StrKind) :
    Keeps 0 fun s => s.readString order kind := by
  cases kind with
  | Vint => exact ((keeps_readVarint 64 10 0 0).map _).bind fun len => keeps_read _
  | _ => exact ((keeps_readFixed order _).map _).bind fun len => keeps_read _

/-- The bytes a writer passes to `write`. -/
def Num.encode (order endian : Endian) : Num → List UInt8
  | .fint8 v => [v.toUInt8]
  | .fuint8 v => [v]
  | .fint16 v => fixed 2 v.toUInt16.toNat
  | .fuint16 v => fixed 2 v.toNat
  | .fint32 v => fixed 4 v.toUInt32.toNat
  | .fuint32 v => fixed 4 v.toNat
  | .fint64 v => fixed 8 v.toUInt64.toNat
  | .fuint64 v => fixed 8 v.toNat
  | .int32 v => varint 5 (encodeZigzag32 v).toNat
  | .uint32 v => varint 5 v.toNat
  | .int64 v => varint 10 (encodeZigzag64 v).toNat
  | .uint64 v => varint 10 v.toNat
  | .float v => fixed 4 v.toNat
  | .double v => fixed 8 v.toNat
where
  fixed (k n : Nat) : List UInt8 := layout order k (if endian ≠ order then byteswap k n else n)

theorem writeNum_eq (order : Endian) (s : ByteArray) (v : Num) :
    s.writeNum order v = s.write (v.encode order s.endian) := by
  cases v <;> rfl

/-- The length field of a string of `n` bytes. -/
def StrKind.header (n : Nat) : StrKind → Num
  | .F16 => .fuint16 (UInt16.ofNat n)
  | .F32 => .fuint32 (UInt32.ofNat n)
  | .F64 => .fuint64 (UInt64.ofNat n)
  | .Vint => .uint64 (UInt64.ofNat n)

theorem writeString_eq (order : Endian) (s : ByteArray) (kind : StrKind) (value : List UInt8) :
    s.writeString order kind value =
      (s.writeNum order (kind.header value.length)).bind fun _ s => s.write value := by
  cases kind <;> rfl

/-- A number takes at most ten bytes, whatever the byte orders. -/
def Num.room : Num → Nat
  | .fint8 _ | .fuint8 _ => 1
  | .fint16 _ | .fuint16 _ => 2
  | .fint32 _ | .fuint32 _ | .float _ => 4
  | .fint64 _ | .fuint64 _ | .double _ => 8
  | .int32 _ | .uint32 _ => 5
  | .int64 _ | .uint64 _ => 10

theorem length_layout (order : Endian) (k n : Nat) : (layout order k n).length = k := by
  cases order <;> simp [layout]

theorem length_varint_le (room value : Nat) : (varint room value).length ≤ room := by
  induction room generalizing value with
  | zero => simp [varint]
  | succ room ih =>
      unfold varint
      split
      · have := ih (value >>> 7)
        rw [List.length_cons]
        omega
      · simp

theorem Num.length_encode_le (order endian : Endian) (v : Num) :
    (v.encode order endian).length ≤ v.room := by
  cases v with
  | fint8 v | fuint8 v => exact le_rfl
  | int32 v | uint32 v | int64 v | uint64 v => exact length_varint_le _ _
  | _ => exact (length_layout _ _ _).le

theorem keeps_writeNum (order : Endian) (v : Num) : Keeps v.room fun s => s.writeNum order v := by
  intro s hs h53 s' hs'
  dsimp only at hs'
  rw [writeNum_eq] at hs'
  exact (keeps_write _).mono (v.length_encode_le order s.endian) s hs h53 s' hs'

theorem keeps_writeString (order : Endian) (kind : StrKind) (value : List UInt8) :
    Keeps ((kind.header value.length).room + value.length)
      fun s => s.writeString order kind value := by
  intro s hs h53 s' hs'
  dsimp only at hs'
  rw [writeString_eq] at hs'
  exact (keeps_writeNum order _).bind (fun _ => keeps_write value) s hs h53 s' hs'

theorem keeps_readFileLoop (fuel : Nat) (content : List UInt8) :
    Keeps content.length fun s => readFileLoop fuel s content := by
  induction fuel generalizing content with
  | zero => exact (keeps_done fun _ => ()).mono (Nat.zero_le _)
  | succ fuel ih =>
      intro s hs h53 s' hs'
      have hsplit : (content.take s.baseSize).length + (content.drop s.baseSize).length =
          content.length := by
        rw [← List.length_append, List.take_append_drop]
      have hstep : Keeps ((content.take s.baseSize).length + (content.drop s.baseSize).length)
          fun t => (t.write (content.take s.baseSize)).bind fun _ t' =>
            if content.length < s.baseSize then .done () t'
            else readFileLoop fuel t' (content.drop s.baseSize) := by
        refine (keeps_write _).bind fun _ => ?_
        by_cases hlast : content.length < s.baseSize
        · simp only [if_pos hlast]
          exact (keeps_done fun _ => ()).mono (Nat.zero_le _)
        · simp only [if_neg hlast]
          exact ih _
      rw [hsplit] at hstep
      exact hstep s hs h53 s' hs'

theorem keeps_readFromFile (file : Option (List UInt8)) :
    Keeps (file.elim 0 List.length) fun s => s.readFromFile file := by
  cases file with
  | none => exact keeps_done fun _ => false
  | some content => exact (keeps_readFileLoop _ content).map _

theorem keeps_getWriteBuffers (len : Nat) : Keeps len fun s => s.getWriteBuffers len := by
  intro s hs h53 s' hs'
  dsimp only [getWriteBuffers] at hs'
  split at hs'
  · cases hs'
    exact ⟨hs, by omega⟩
  · have := hs.position
    have hroom : s.position + len < 2 ^ 53 := by omega
    obtain ⟨-, -, hwf, -, -, hsize, -⟩ := addCapacity_spec hs hroom (by omega)
    split at hs'
    · cases hs'
    · split at hs'
      · cases hs'
      · cases hs'
        exact ⟨hwf, by omega⟩

end Keeps

/-! ## Runs -/

/-- The public operations that may change a byte array. -/
inductive Op
  | write (buf : List UInt8)
  | read (size : Nat)
  | readAt (size position : Nat)
  | toString
  | writeNum (v : Num)
  | readNum (kind : NumKind)
  | writeString (kind : StrKind) (value : List UInt8)
  | writeStringWithoutLength (value : List UInt8)
  | readString (kind : StrKind)
  | readFromFile (file : Option (List UInt8))
  | setPosition (v : Nat)
  | clear
  | getWriteBuffers (len : Nat)
  | setIsLittleEndian (val : Bool)
  deriving DecidableEq, Repr

def Op.apply (order : Endian) (s : ByteArray) : Op → Result Unit
  | .write buf => s.write buf
  | .read size => (s.read size).map fun _ => ()
  | .readAt size position => (s.readAt size position).map fun _ => ()
  | .toString => s.toString.map fun _ => ()
  | .writeNum v => s.writeNum order v
  | .readNum kind => (s.readNum order kind).map fun _ => ()
  | .writeString kind value => s.writeString order kind value
  | .writeStringWithoutLength value => s.writeStringWithoutLength value
  | .readString kind => (s.readString order kind).map fun _ => ()
  | .readFromFile file => (s.readFromFile file).map fun _ => ()
  | .setPosition v => s.setPosition v
  | .clear => .done () s.clear
  | .getWriteBuffers len => (s.getWriteBuffers len).map fun _ => ()
  | .setIsLittleEndian val => .done () (s.setIsLittleEndian val)

/-- The bytes an operation wants room for. -/
def Op.room : Op → Nat
  | .write buf => buf.length
  | .writeNum v => v.room
  | .writeString kind value => (kind.header value.length).room + value.length
  | .writeStringWithoutLength value => value.length
  | .readFromFile file => file.elim 0 List.length
  | .getWriteBuffers len => len
  | _ => 0

/-- A byte array with blocks of `b` bytes. An operation that does not come to an end is not a
step; one that throws is. -/
def byteArraySys (order : Endian) (b : Nat) : TSys ByteArray Op where
  init := fun s => ∃ heap, s = new b heap
  step := fun s op => (op.apply order s).state

/-- Total sizes stay below `2^53`. -/
def Sized (s : ByteArray) (op : Op) : Prop := s.size + op.room < 2 ^ 53

theorem wf_setPosition (h : Wf s) {v : Nat} (hs : (s.setPosition v).state = some s') : Wf s' := by
  by_cases hv : v ≤ s.capacity
  · rw [setPosition_eq h hv] at hs
    cases hs
    have hsize := h.size
    refine ⟨h.base, h.blocks, h.root, h.capacity, ?_, ?_, rfl, h.small⟩
    · show v ≤ max s.size v
      omega
    · show max s.size v ≤ s.capacity
      omega
  · unfold setPosition at hs
    rw [if_pos (by omega)] at hs
    cases hs
    exact h

theorem wf_clear (h : Wf s) : Wf s.clear := by
  have hroot := List.length_pos_of_ne_nil h.root
  have hlen : (s.nodes.take 1).length = 1 := by
    rw [List.length_take]
    omega
  refine ⟨h.base, ?_, ?_, ?_, le_rfl, Nat.zero_le _, ?_, h.small.1, ?_⟩
  · intro node hnode
    exact h.blocks node (List.mem_of_mem_take hnode)
  · exact List.ne_nil_of_length_pos (by show 0 < (s.nodes.take 1).length; omega)
  · show s.baseSize = (s.nodes.take 1).length * s.baseSize
    rw [hlen, Nat.one_mul]
  · have hbase := h.base
    have hne : 0 ≠ s.baseSize := by omega
    show some 0 = if 0 = s.baseSize then none else some (0 / s.baseSize)
    rw [if_neg hne, Nat.zero_div]
  · have := h.small.1
    show s.baseSize < 2 ^ 54
    omega

theorem wf_step {order : Endian} {op : Op} (h : Wf s) (hsized : Sized s op)
    (hs : (byteArraySys order b).step s op = some s') : Wf s' := by
  have hs : (op.apply order s).state = some s' := hs
  cases op with
  | write buf => exact (keeps_write buf s h hsized s' hs).1
  | read size => exact ((keeps_read size).map _ s h hsized s' hs).1
  | readAt size position => exact ((keeps_readAt size position).map _ s h hsized s' hs).1
  | toString => exact (keeps_toString.map _ s h hsized s' hs).1
  | writeNum v => exact (keeps_writeNum order v s h hsized s' hs).1
  | readNum kind => exact ((keeps_readNum order kind).map _ s h hsized s' hs).1
  | writeString kind value => exact (keeps_writeString order kind value s h hsized s' hs).1
  | writeStringWithoutLength value => exact (keeps_write value s h hsized s' hs).1
  | readString kind => exact ((keeps_readString order kind).map _ s h hsized s' hs).1
  | readFromFile file => exact ((keeps_readFromFile file).map _ s h hsized s' hs).1
  | setPosition v => exact wf_setPosition h hs
  | clear =>
      cases hs
      exact wf_clear h
  | getWriteBuffers len => exact ((keeps_getWriteBuffers len).map _ s h hsized s' hs).1
  | setIsLittleEndian val =>
      cases hs
      exact ⟨h.base, h.blocks, h.root, h.capacity, h.position, h.size, h.cur, h.small⟩

theorem wf_inductive {order : Endian} (hb : 0 < b) (h53 : b < 2 ^ 53) :
    (byteArraySys order b).Inductive Sized Wf where
  init := by
    rintro s ⟨heap, rfl⟩
    exact wf_new hb h53
  step := fun _ _ _ h hg hs => wf_step h hg hs

/-- The representation invariant. -/
structure Representation (s : ByteArray) : Prop where
  blocks : ∀ node ∈ s.nodes, node.length = s.baseSize
  capacity : s.capacity = s.nodes.length * s.baseSize
  position : s.position ≤ s.size
  size : s.size ≤ s.capacity
  null : s.cur = none ↔ s.position = s.capacity
  cur : ∀ i, s.cur = some i → i = s.position / s.baseSize ∧ i < s.nodes.length

/-- Every byte array reached by operations that come to an end, throwing or not, satisfies the
representation invariant. -/
theorem representation {order : Endian} (hb : 0 < b) (h53 : b < 2 ^ 53)
    (h : (byteArraySys order b).Reaches Sized s) : Representation s := by
  have hwf : Wf s := (wf_inductive hb h53).invariant h
  have hle : s.position ≤ s.capacity := hwf.position.trans hwf.size
  refine ⟨hwf.blocks, hwf.capacity, hwf.position, hwf.size, ?_, ?_⟩
  · rw [hwf.cur, curAt]
    split <;> simp_all
  · intro i hi
    rw [hwf.cur, curAt] at hi
    split at hi
    · cases hi
    · rename_i hne
      cases hi
      refine ⟨rfl, ?_⟩
      have := hwf.capacity
      rw [Nat.div_lt_iff_lt_mul hwf.base]
      omega

def sizedTest (s : ByteArray) (op : Op) : Bool := decide (s.size + op.room < 2 ^ 53)

theorem sized_of_test (s : ByteArray) (op : Op) (h : sizedTest s op = true) : Sized s op := by
  have hlt : s.size + op.room < 2 ^ 53 := of_decide_eq_true h
  exact hlt

/-- Blocks of two bytes: a string of three with its length field, a position that is too far,
and the position at the end of the chain. -/
def threeBlocksTrace : List Op :=
  [.writeString .F16 [97, 98, 99], .setPosition 7, .setPosition 6]

theorem representation_three : ∃ s, (byteArraySys .little 2).Reaches Sized s ∧
    s.nodes.length = 3 ∧ s.cur = none ∧ s.size = 6 ∧ Representation s := by
  have hrun : ∃ s, (byteArraySys .little 2).Reaches Sized s ∧
      decide (s.nodes.length = 3 ∧ s.cur = none ∧ s.size = 6) = true :=
    TSys.exists_reaches sized_of_test (l := threeBlocksTrace) (s := new 2 fun _ _ => 0)
      ⟨fun _ _ => 0, rfl⟩ (by decide +kernel)
  obtain ⟨s, hs, htest⟩ := hrun
  obtain ⟨hnodes, hcur, hsize⟩ := of_decide_eq_true htest
  exact ⟨s, hs, hnodes, hcur, hsize, representation (by decide) (by decide) hs⟩

end Gxh.ByteArray
