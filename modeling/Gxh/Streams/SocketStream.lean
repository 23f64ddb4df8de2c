import Gxh.ByteArray.Views

/-!
# Byte arrays through a socket

`SocketStream::read` and `write` (`socket_stream.cc`) move bytes between a byte array and the
socket through scatter lists, and `Stream::readFixSize` and `writeFixSize` (`stream.cc`) repeat
them until the whole length has passed. What `recvmsg` and `sendmsg` answer is an input.

* `Overwrites` is the effect of `write` on the content, whatever the blocks;
* `read_overwrites` — one `SocketStream::read` has it, for the bytes it received;
* `fix_size_transfers` — the loops add up to one `write` or one `read`.
-/

namespace Gxh

namespace ByteArray

variable {s t u : ByteArray} {b : Nat}

/-! ## Filling a scatter list -/

/-- Put data into the memory of the iovecs, one after the other. -/
def scatter : List (List UInt8) → List Iovec → List UInt8 → List (List UInt8)
  | nodes, [], _ => nodes
  | nodes, v :: rest, data =>
      scatter (nodes.modify v.node fun node => splice node v.base (data.take v.len)) rest
        (data.drop v.len)

@[simp] theorem scatter_nil (nodes : List (List UInt8)) (iovs : List Iovec) :
    scatter nodes iovs [] = nodes := by
  induction iovs generalizing nodes with
  | nil => rfl
  | cons v rest ih =>
      have hid : (fun node : List UInt8 => splice node v.base []) = id := by
        funext node
        rw [splice_nil, id]
      rw [scatter, List.take_nil, List.drop_nil, hid, List.modify_id, ih]

/-- Writing inside one block. -/
theorem Blocks.modify {nodes : List (List UInt8)} (h : Blocks b nodes) {i npos : Nat}
    {x : List UInt8} (hfit : npos + x.length ≤ b) (hi : i < nodes.length) :
    (nodes.modify i fun node => splice node npos x).flatten =
      splice nodes.flatten (i * b + npos) x ∧
    Blocks b (nodes.modify i fun node => splice node npos x) := by
  induction nodes generalizing i with
  | nil =>
      rw [List.length_nil] at hi
      omega
  | cons node rest ih =>
      obtain ⟨hnode, hrest⟩ := h.of_cons
      have hin : npos + x.length ≤ node.length := by omega
      cases i with
      | zero =>
          refine ⟨?_, ?_⟩
          · show splice node npos x ++ rest.flatten = splice (node ++ rest.flatten) _ x
            rw [Nat.zero_mul, Nat.zero_add, splice_append hin]
          · intro y hy
            rcases List.mem_cons.mp hy with rfl | hy
            · rw [length_splice hin, hnode]
            · exact hrest y hy
      | succ i =>
          rw [List.length_cons] at hi
          obtain ⟨hflat, hblocks⟩ := ih hrest (i := i) (by omega)
          refine ⟨?_, ?_⟩
          · have hskip : (i + 1) * b + npos = node.length + (i * b + npos) := by
              rw [hnode, Nat.add_mul]
              omega
            show node ++ (rest.modify i fun node => splice node npos x).flatten =
              splice (node ++ rest.flatten) _ x
            rw [hflat, hskip, splice_append_right]
          · intro y hy
            rcases List.mem_cons.mp hy with rfl | hy
            · exact hnode
            · exact hblocks y hy

/-- Data that are no longer than the region end up in it. -/
theorem Covers.scatter_eq {nodes : List (List UInt8)} (hblocks : Blocks b nodes) {p q : Nat}
    {iovs : List Iovec} (h : Covers b p q iovs) (hq : q ≤ nodes.length * b) {data : List UInt8}
    (hfit : p + data.length ≤ q) :
    (scatter nodes iovs data).flatten = splice nodes.flatten p data ∧
    Blocks b (scatter nodes iovs data) ∧ (scatter nodes iovs data).length = nodes.length := by
  induction iovs generalizing nodes p data with
  | nil =>
      have heq : p = q := h
      have hnil : data = [] := List.eq_nil_of_length_eq_zero (by omega)
      rw [hnil, splice_nil]
      exact ⟨rfl, hblocks, rfl⟩
  | cons v rest ih =>
      obtain ⟨hbase, hin, hrest⟩ := h
      have hle := hrest.le
      have htake : (data.take v.len).length = min v.len data.length := List.length_take
      have hdrop : (data.drop v.len).length = data.length - v.len := List.length_drop
      -- the first iovec takes as much of the data as it has room for
      have hstep : (nodes.modify v.node fun node => splice node v.base (data.take v.len)).flatten =
          splice nodes.flatten p (data.take v.len) ∧
          Blocks b (nodes.modify v.node fun node => splice node v.base (data.take v.len)) := by
        by_cases hempty : data.take v.len = []
        · -- nothing is left for this iovec
          have hid : (fun node : List UInt8 => splice node v.base (data.take v.len)) = id := by
            funext node
            rw [hempty, splice_nil, id]
          rw [hid, List.modify_id, hempty, splice_nil]
          exact ⟨rfl, hblocks⟩
        · have hpos := List.length_pos_of_ne_nil hempty
          have hroom : v.node * b + v.base + (data.take v.len).length ≤ nodes.length * b := by
            omega
          rw [← hbase]
          exact hblocks.modify (by omega) (block_lt hroom hpos)
      obtain ⟨hflat, hblocks'⟩ := hstep
      have hroom : q ≤ (nodes.modify v.node fun node =>
          splice node v.base (data.take v.len)).length * b := by
        rw [List.length_modify]
        exact hq
      have hfit' : p + v.len + (data.drop v.len).length ≤ q := by omega
      obtain ⟨hflat', hblocks'', hlen⟩ := ih hblocks' hrest hroom hfit'
      refine ⟨?_, hblocks'', by rw [scatter, hlen, List.length_modify]⟩
      rw [scatter, hflat', hflat]
      by_cases hshort : data.length ≤ v.len
      · rw [List.drop_of_length_le hshort, List.take_of_length_le hshort, splice_nil]
      · have hp : p ≤ nodes.flatten.length := by
          rw [hblocks.length_flatten]
          omega
        have hstart : p + v.len = p + (data.take v.len).length := by omega
        -- what the others write comes right behind it
        rw [hstart, splice_splice hp, List.take_append_drop]

/-! ## The effect of a write -/

/-- The content with `data` from the position on, and the position behind them. -/
structure Overwrites (s s' : ByteArray) (data : List UInt8) : Prop where
  wf : Wf s'
  position : s'.position = s.position + data.length
  content : s'.content = splice s.content s.position data

theorem Overwrites.trans {x y : List UInt8} (h : Wf s) (hx : Overwrites s t x)
    (hy : Overwrites t u y) : Overwrites s u (x ++ y) where
  wf := hy.wf
  position := by rw [hy.position, hx.position, List.length_append, Nat.add_assoc]
  content := by
    have hle : s.position ≤ s.content.length := by
      rw [h.length_content]
      exact h.position
    rw [hy.content, hx.content, hx.position, splice_splice hle]

/-- Data put into the blocks behind the position, with the size raised to their end. -/
theorem content_splice (h : Wf s) {new data : List UInt8} :
    (splice (s.bytes ++ new) s.position data).take (max s.size (s.position + data.length)) =
      splice s.content s.position data := by
  have hsize := h.size
  have hlen := h.length_bytes
  rw [take_splice h.position (by rw [List.length_append]; omega),
    List.take_append_of_le_length (by omega)]
  rfl

theorem write_overwrites (h : Wf s) {data : List UInt8} (h53 : s.position + data.length < 2 ^ 53)
    (hdata : 0 < data.length) : ∃ s', s.write data = .done () s' ∧ Overwrites s s' data := by
  obtain ⟨s', new, heq, hwf, hbytes, -, hpos, hsize, -, -⟩ := write_eq h h53 hdata
  refine ⟨s', heq, hwf, hpos, ?_⟩
  rw [content, hbytes, hsize, content_splice h]

end ByteArray

/-! ## One call -/

open Gxh.ByteArray

namespace SocketStream

variable {s t : ByteArray} {b : Nat} {order : Endian}

/-- What `::recvmsg` answers: an error, or the bytes it has put, none at the end of the stream. -/
abbrev Recvmsg := Option (List UInt8)

/-- `SocketStream::read(ba, length)`. -/
def read (connected : Bool) (ba : ByteArray) (length : Nat) (answer : Recvmsg) : Result Int :=
  if connected then
    (ba.getWriteBuffers length).bind fun iovs ba =>
      match answer with
      | none => .done (-1) ba
      | some data =>
          let ba := { ba with nodes := scatter ba.nodes iovs data }
          let rt := toInt data.length
          if rt > 0 then (ba.setPosition (ba.position + rt.toNat)).map fun _ => rt
          else .done rt ba
  else .done (-1) ba

/-- `SocketStream::write(ba, length)`, with the bytes sent; `rt` is what `::sendmsg` answers, and
so many bytes of the iovecs it has taken. -/
def write (connected : Bool) (ba : ByteArray) (length : Nat) (rt : Int) :
    Result (Int × List UInt8) :=
  if connected then
    (ba.getReadBuffers length).bind fun buffers ba =>
      let sent := (gather ba.nodes buffers.1).take rt.toNat
      if rt > 0 then (ba.setPosition (ba.position + rt.toNat)).map fun _ => (rt, sent)
      else .done (rt, sent) ba
  else .done (-1, []) ba

/-- A chain with other blocks of the same shape. -/
theorem wf_nodes (h : Wf s) {nodes : List (List UInt8)} (hblocks : Blocks s.baseSize nodes)
    (hlen : nodes.length = s.nodes.length) : Wf { s with nodes } := by
  have hroot := List.length_pos_of_ne_nil h.root
  refine ⟨h.base, hblocks, ?_, ?_, h.position, h.size, h.cur, h.small⟩
  · exact List.ne_nil_of_length_pos (by show 0 < nodes.length; omega)
  · show s.capacity = nodes.length * s.baseSize
    rw [hlen, h.capacity]

/-- A `read` that receives some bytes, at most as many as asked for, writes them. -/
theorem read_overwrites (h : Wf s) {length : Nat} {data : List UInt8} (hdata : 0 < data.length)
    (hle : data.length ≤ length) (h31 : data.length < 2 ^ 31) (h53 : s.position + length < 2 ^ 53) :
    ∃ s', read true s length (some data) = .done data.length s' ∧ Overwrites s s' data := by
  obtain ⟨new, hbytes, hwf, -, hpos, hsize, -, hbase, hroom⟩ :=
    addCapacity_spec h h53 (Nat.lt_of_lt_of_le hdata hle)
  obtain ⟨iovs, hiovs, hcov⟩ := getWriteBuffers_eq h h53 (Nat.lt_of_lt_of_le hdata hle)
  have hmul := hwf.capacity
  have hblocks := hwf.blocks
  rw [hbase] at hmul hblocks
  have hinside : s.position + data.length ≤ s.position + length := by omega
  have hend : s.position + length ≤ (s.addCapacity length).nodes.length * s.baseSize := by omega
  obtain ⟨hflat, hblocks', hlen⟩ := hcov.scatter_eq hblocks hend hinside
  have hfilled : Wf { s.addCapacity length with
      nodes := scatter (s.addCapacity length).nodes iovs data } :=
    wf_nodes hwf (by rw [hbase]; exact hblocks') hlen
  have hrt : toInt data.length = data.length := toInt_of_lt h31
  have hset := setPosition_eq hfilled (show (s.addCapacity length).position + data.length ≤ _ by
    show _ ≤ (s.addCapacity length).capacity
    omega)
  have hwf' := wf_setPosition hfilled (by rw [hset]; rfl)
  refine ⟨_, ?_, hwf', ?_, ?_⟩
  · unfold read
    rw [if_pos rfl, hiovs, Result.bind_done]
    dsimp only
    rw [hrt, if_pos (by omega), Int.toNat_natCast, hset, Result.map_done]
  · show (s.addCapacity length).position + data.length = _
    rw [hpos]
  · show List.take (max (s.addCapacity length).size ((s.addCapacity length).position +
      data.length)) (scatter (s.addCapacity length).nodes iovs data).flatten = _
    rw [hflat, hpos, hsize, show (s.addCapacity length).nodes.flatten =
      (s.addCapacity length).bytes from rfl, hbytes, content_splice h]

/-- A `write` that sends some bytes, at most as many as asked for, sends those behind the
position. -/
theorem write_sends (h : Wf s) {length k : Nat} (hk : 0 < k) (hle : k ≤ length)
    (hfit : s.position + k ≤ s.size) :
    write true s length k =
      .done (k, (s.content.drop s.position).take k) (s.seek (s.position + k)) := by
  obtain ⟨iovs, hiovs, hcov⟩ := getReadBuffers_eq h length
  have hgather := h.gather_eq hcov (by omega)
  rw [Nat.add_sub_cancel_left] at hgather
  unfold write
  rw [if_pos rfl, hiovs, Result.bind_done]
  dsimp only
  rw [if_pos (by omega), Int.toNat_natCast, hgather, List.take_take, Nat.min_eq_left (by omega),
    setPosition_eq h (by have := h.size; omega), Nat.max_eq_left (by omega)]
  rfl

/-- A `write` that sends nothing, for whatever reason, leaves the array alone. -/
theorem write_fails (h : Wf s) (length : Nat) {rt : Int} (hrt : rt ≤ 0) :
    write true s length rt = .done (rt, []) s := by
  obtain ⟨iovs, hiovs, -⟩ := getReadBuffers_eq h length
  unfold write
  rw [if_pos rfl, hiovs, Result.bind_done]
  dsimp only
  rw [if_neg (by omega), Int.toNat_of_nonpos hrt, List.take_zero]

end SocketStream

/-! ## The loops -/

namespace Stream

variable {s t : ByteArray} {b : Nat} {order : Endian}

/-- The loop of `Stream::readFixSize(ba, length)`. When the answers have run out the stream is at
its end. -/
def readFixLoop (connected : Bool) (length : Nat) :
    List SocketStream.Recvmsg → ByteArray → Int → Result Int
  | [], ba, left =>
      if left > 0 then SocketStream.read connected ba left.toNat (some [])
      else .done (toInt length) ba
  | answer :: rest, ba, left =>
      if left > 0 then
        (SocketStream.read connected ba left.toNat answer).bind fun len ba =>
          if len ≤ 0 then .done len ba
          else readFixLoop connected length rest ba (left - len)
      else .done (toInt length) ba

/-- `Stream::readFixSize(ba, length)`. -/
def readFixSize (connected : Bool) (ba : ByteArray) (length : Nat)
    (answers : List SocketStream.Recvmsg) : Result Int :=
  readFixLoop connected length answers ba length

/-- The loop of `Stream::writeFixSize(ba, length)`, with the bytes sent so far. When the answers
have run out `sendmsg` fails. -/
def writeFixLoop (connected : Bool) (length : Nat) :
    List Int → ByteArray → Int → List UInt8 → Result (Int × List UInt8)
  | [], ba, left, sent =>
      if left > 0 then
        (SocketStream.write connected ba left.toNat (-1)).map fun r => (r.1, sent ++ r.2)
      else .done (toInt length, sent) ba
  | answer :: rest, ba, left, sent =>
      if left > 0 then
        (SocketStream.write connected ba left.toNat answer).bind fun r ba =>
          if r.1 ≤ 0 then .done (r.1, sent ++ r.2) ba
          else writeFixLoop connected length rest ba (left - r.1) (sent ++ r.2)
      else .done (toInt length, sent) ba

/-- `Stream::writeFixSize(ba, length)`. -/
def writeFixSize (connected : Bool) (ba : ByteArray) (length : Nat) (answers : List Int) :
    Result (Int × List UInt8) :=
  writeFixLoop connected length answers ba length []

/-- However the bytes arrive, they are written one behind the other. -/
theorem readFixLoop_overwrites (h : Wf s) (length : Nat) {chunks : List (List UInt8)}
    (hchunks : ∀ c ∈ chunks, c ≠ []) (h31 : chunks.flatten.length < 2 ^ 31)
    (h53 : s.position + chunks.flatten.length < 2 ^ 53) :
    ∃ s', readFixLoop true length (chunks.map some) s chunks.flatten.length =
        .done (toInt length) s' ∧ Overwrites s s' chunks.flatten := by
  induction chunks generalizing s with
  | nil =>
      refine ⟨s, rfl, h, rfl, ?_⟩
      rw [List.flatten_nil, splice_nil]
  | cons c rest ih =>
      have hc := List.length_pos_of_ne_nil (hchunks c (by simp))
      rw [List.flatten_cons, List.length_append] at h31 h53 ⊢
      obtain ⟨t, hread, ht⟩ := SocketStream.read_overwrites h hc (Nat.le_add_right _ _)
        (by omega) h53
      have hpos := ht.position
      obtain ⟨s', hrest, hs'⟩ := ih ht.wf (fun x hx => hchunks x (List.mem_cons_of_mem _ hx))
        (by omega) (by omega)
      have hleft : ((c.length + rest.flatten.length : Nat) : Int) - (c.length : Nat) =
          (rest.flatten.length : Nat) := by
        omega
      refine ⟨s', ?_, ht.trans h hs'⟩
      rw [List.map_cons, readFixLoop, if_pos (by omega), Int.toNat_natCast, hread,
        Result.bind_done, if_neg (by omega), hleft, hrest]

/-- However the bytes leave, they are those behind the position, in order. -/
theorem writeFixLoop_sends (h : Wf s) (length : Nat) {counts : List Nat} (sent : List UInt8)
    (hcounts : ∀ c ∈ counts, 0 < c) (hfit : s.position + counts.sum ≤ s.size) :
    writeFixLoop true length (counts.map Int.ofNat) s counts.sum sent =
      .done (toInt length, sent ++ (s.content.drop s.position).take counts.sum)
        (s.seek (s.position + counts.sum)) := by
  induction counts generalizing s sent with
  | nil =>
      rw [List.sum_nil, List.take_zero, List.append_nil, Nat.add_zero, h.seek_position]
      rfl
  | cons c rest ih =>
      have hc := hcounts c (by simp)
      rw [List.sum_cons] at hfit ⊢
      have hsend := SocketStream.write_sends h hc (Nat.le_add_right c rest.sum) (by omega)
      have hnext : Wf (s.seek (s.position + c)) := h.seek (by omega)
      have hleft : ((c + rest.sum : Nat) : Int) - (c : Nat) = (rest.sum : Nat) := by omega
      have hcontent : (s.seek (s.position + c)).content = s.content := rfl
      rw [List.map_cons, writeFixLoop, if_pos (by omega), Int.toNat_natCast,
        show Int.ofNat c = (c : Int) from rfl, hsend, Result.bind_done]
      dsimp only
      rw [if_neg (by omega), hleft,
        ih hnext _ (fun x hx => hcounts x (List.mem_cons_of_mem _ hx))
          (by rw [seek_position, seek_size]; omega),
        seek_seek, seek_position, hcontent, Nat.add_assoc, List.append_assoc, List.take_add,
        List.drop_drop]

/-- Whatever positive counts the socket answers with, `readFixSize` leaves what one `write` of the
bytes received leaves, and `writeFixSize` sends what is behind the position and moves past it. -/
theorem fix_size_transfers (hb : 0 < b) (hb53 : b < 2 ^ 53)
    (h : (byteArraySys order b).Reaches Sized s) {n : Nat} (hn : 0 < n) (h31 : n < 2 ^ 31) :
    (∀ chunks : List (List UInt8), (∀ c ∈ chunks, c ≠ []) → chunks.flatten.length = n →
      s.position + n < 2 ^ 53 →
      ∃ s₁ s₂, readFixSize true s n (chunks.map some) = .done n s₁ ∧
        s.write chunks.flatten = .done () s₂ ∧ s₁.content = s₂.content ∧
        s₁.position = s₂.position ∧ s₁.size = s₂.size) ∧
    (∀ counts : List Nat, (∀ c ∈ counts, 0 < c) → counts.sum = n → n ≤ s.getReadSize →
      ∃ s₁, writeFixSize true s n (counts.map Int.ofNat) =
          .done (n, (s.content.drop s.position).take n) s₁ ∧
        s₁.position = s.position + n ∧ s₁.content = s.content) := by
  have hwf : Wf s := (wf_inductive hb hb53).invariant h
  have hint : toInt n = n := toInt_of_lt h31
  constructor
  · intro chunks hchunks hlen h53
    rw [← hlen] at h31 h53 hn
    obtain ⟨s₁, hread, hs₁⟩ := readFixLoop_overwrites hwf n hchunks h31 h53
    obtain ⟨s₂, hwrite, hs₂⟩ := write_overwrites hwf h53 hn
    rw [hlen, hint] at hread
    have hcontent : s₁.content = s₂.content := by rw [hs₁.content, hs₂.content]
    refine ⟨s₁, s₂, hread, hwrite, hcontent, ?_, ?_⟩
    · rw [hs₁.position, hs₂.position]
    · rw [← hs₁.wf.length_content, hcontent, hs₂.wf.length_content]
  · intro counts hcounts hsum hle
    rw [hwf.getReadSize_eq] at hle
    have hpos := hwf.position
    have hsend := writeFixLoop_sends hwf n [] hcounts (by omega)
    rw [hsum, hint, List.nil_append] at hsend
    exact ⟨_, hsend, rfl, rfl⟩

/-- Five bytes arrive in two pieces across blocks of two, and three leave in two. -/
theorem fix_size_transfers_split : ∃ s, (byteArraySys .little 2).Reaches Sized s ∧
    (∃ s₁ s₂, readFixSize true s 5 [some [1, 2, 3], some [4, 5]] = .done 5 s₁ ∧
      s.write [1, 2, 3, 4, 5] = .done () s₂ ∧ s₁.content = s₂.content) ∧
    ∃ s₁, writeFixSize true s 3 [1, 2] = .done (3, [8, 7, 6]) s₁ ∧ s₁.content = s.content := by
  obtain ⟨s, hs, hcontent, hpos, hleft⟩ := exists_reached (b := 2)
    [.write [9, 8, 7, 6], .setPosition 1]
    (p := fun s => s.content = [9, 8, 7, 6] ∧ s.position = 1 ∧ 3 ≤ s.getReadSize)
    (by decide +kernel)
  have h53 : s.position + 5 < 2 ^ 53 := by omega
  obtain ⟨s₁, s₂, hread, hwrite, hsame, -, -⟩ :=
    (fix_size_transfers (by decide) (by decide) hs (n := 5) (by decide) (by decide)).1
      [[1, 2, 3], [4, 5]] (List.forall_mem_cons.mpr ⟨by decide,
        List.forall_mem_singleton.mpr (by decide)⟩) rfl h53
  obtain ⟨s₃, hsend, -, hkept⟩ :=
    (fix_size_transfers (by decide) (by decide) hs (n := 3) (by decide) (by decide)).2
      [1, 2] (List.forall_mem_cons.mpr ⟨by decide, List.forall_mem_singleton.mpr (by decide)⟩)
      rfl hleft
  rw [hcontent, hpos] at hsend
  exact ⟨s, hs, ⟨s₁, s₂, hread, hwrite, hsame⟩, s₃, hsend, hkept⟩

end Stream

end Gxh
