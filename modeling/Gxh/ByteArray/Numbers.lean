import Gxh.ByteArray.Invariant

/-!
# Numbers written and read back

`readNum` inverts `writeNum` for every kind (`readNum_eq`), wherever the bytes stand in the
chain. Lists of numbers of mixed kinds, each under its own endianness, follow by induction.
-/

namespace Gxh.ByteArray

variable {s s' : ByteArray} {order : Endian} {b : Nat}

/-! ## One number -/

theorem ofLayout_layout {k n : Nat} (h : n < 256 ^ k) : ofLayout order (layout order k n) = n := by
  cases order with
  | little => exact ofBytes_toBytes h
  | big =>
      simp only [ofLayout, layout, List.reverse_reverse]
      exact ofBytes_toBytes h

theorem byteswap_lt (k n : Nat) : byteswap k n < 256 ^ k := by
  have h := ofBytes_lt (toBytes k n).reverse
  rwa [List.length_reverse, length_toBytes] at h

theorem byteswap_byteswap {k n : Nat} (h : n < 256 ^ k) : byteswap k (byteswap k n) = n := by
  have hlen : (toBytes k n).reverse.length = k := by simp
  have hback : toBytes k (ofBytes (toBytes k n).reverse) = (toBytes k n).reverse := by
    conv_lhs => rw [← hlen]
    rw [hlen]
    have := toBytes_ofBytes (toBytes k n).reverse
    rwa [hlen] at this
  unfold byteswap
  rw [hback, List.reverse_reverse, ofBytes_toBytes h]

/-- `read` of data that stand at the position. -/
theorem read_holds (h : Wf s) {data : List UInt8} (hpos : 0 < data.length)
    (hdata : Holds s.bytes s.position data) (hfit : s.position + data.length ≤ s.size) :
    s.read data.length = .done data (s.seek (s.position + data.length)) := by
  rw [read_eq h hpos hfit, hdata.slice]

theorem readFixed_eq (h : Wf s) {k n : Nat} (hk : 0 < k) (hn : n < 256 ^ k)
    (hdata : Holds s.bytes s.position (Num.encode.fixed order s.endian k n))
    (hfit : s.position + (Num.encode.fixed order s.endian k n).length ≤ s.size) :
    readFixed order k s =
      .done n (s.seek (s.position + (Num.encode.fixed order s.endian k n).length)) := by
  have hlen : (Num.encode.fixed order s.endian k n).length = k := length_layout _ _ _
  have hread := read_holds h (by omega) hdata hfit
  rw [hlen] at hread ⊢
  unfold readFixed
  rw [hread, Result.map_done]
  congr 1
  unfold Num.encode.fixed
  by_cases hend : s.endian = order
  · simp only [hend, ne_eq, not_true_eq_false, if_false, if_true]
    exact ofLayout_layout hn
  · simp only [ne_eq, hend, not_false_eq_true, if_true, if_false]
    rw [ofLayout_layout (byteswap_lt k n), byteswap_byteswap hn]

/-! ## Varints -/

/-- The low seven bits with the continuation bit. -/
theorem low7_or_0x80 (value : Nat) : value &&& 0x7F ||| 0x80 = value % 128 + 128 := by
  have hlow : value &&& 0x7F = value % 128 := Nat.and_two_pow_sub_one_eq_mod value 7
  have hlt : value % 128 < 2 ^ 7 := Nat.mod_lt _ (by decide)
  have hor : 2 ^ 7 * 1 + value % 128 = 2 ^ 7 * 1 ||| value % 128 :=
    Nat.two_pow_add_eq_or_of_lt hlt 1
  have hsum : 128 ||| value % 128 = 128 + value % 128 := hor.symm
  rw [hlow, Nat.or_comm, hsum, Nat.add_comm]

/-- Seven more bits above those read so far. -/
theorem or_shiftLeft {bits i result x : Nat} (hr : result < 2 ^ i) (hx : x * 2 ^ i < 2 ^ bits) :
    result ||| (x <<< i) % 2 ^ bits = result + x * 2 ^ i := by
  rw [Nat.shiftLeft_eq, Nat.mod_eq_of_lt hx, Nat.or_comm, Nat.mul_comm x,
    ← Nat.two_pow_add_eq_or_of_lt hr]
  omega

theorem readFuint8_eq (h : Wf s) {x : UInt8} (hdata : Holds s.bytes s.position [x])
    (hfit : s.position + 1 ≤ s.size) : s.readFuint8 = .done x (s.seek (s.position + 1)) := by
  have hread := read_holds h (by simp) hdata (by simpa using hfit)
  unfold readFuint8
  rw [show 1 = [x].length from rfl, hread]
  rfl

theorem readVarint_eq {bits room : Nat} (h : Wf s) {i result value : Nat}
    (hvalue : value < 128 ^ room) (hroom : 0 < room) (hr : result < 2 ^ i)
    (hbits : value * 2 ^ i < 2 ^ bits) (hdata : Holds s.bytes s.position (varint room value))
    (hfit : s.position + (varint room value).length ≤ s.size) :
    readVarint bits room i result s =
      .done (result + value * 2 ^ i) (s.seek (s.position + (varint room value).length)) := by
  induction room generalizing s i result value with
  | zero => omega
  | succ room ih =>
      unfold readVarint
      by_cases hbig : value ≥ 0x80
      · -- a byte with the continuation bit, and the rest
        have hcode : varint (room + 1) value =
            UInt8.ofNat (value % 128 + 128) :: varint room (value / 128) := by
          simp only [varint, if_pos hbig, low7_or_0x80, Nat.shiftRight_eq_div_pow]
        have hbyte : (UInt8.ofNat (value % 128 + 128)).toNat = value % 128 + 128 :=
          UInt8.toNat_ofNat_of_lt' (by rw [UInt8.size]; omega)
        rw [hcode, List.length_cons] at hfit ⊢
        rw [hcode, ← List.singleton_append, holds_append] at hdata
        have hhigh : ¬ UInt8.ofNat (value % 128 + 128) < 0x80 := by
          rw [UInt8.lt_iff_toNat_lt, hbyte]
          show ¬ value % 128 + 128 < 128
          omega
        have hpay : (UInt8.ofNat (value % 128 + 128) &&& 0x7F).toNat = value % 128 := by
          rw [UInt8.toNat_and, hbyte]
          show (value % 128 + 128) &&& 2 ^ 7 - 1 = value % 128
          rw [Nat.and_two_pow_sub_one_eq_mod]
          omega
        have hpow : 2 ^ (i + 7) = 2 ^ i * 128 := by rw [Nat.pow_add]
        have hsplit : value * 2 ^ i = value % 128 * 2 ^ i + value / 128 * 2 ^ (i + 7) := by
          rw [hpow]
          conv_lhs => rw [← Nat.div_add_mod value 128]
          ring
        have hr' : result + value % 128 * 2 ^ i < 2 ^ (i + 7) := by
          have hmod : value % 128 * 2 ^ i ≤ 127 * 2 ^ i :=
            Nat.mul_le_mul_right _ (by omega)
          rw [hpow]
          omega
        have hroom' : 0 < room := by
          by_contra hzero
          have hz : room = 0 := by omega
          rw [hz] at hvalue
          omega
        have hvalue' : value / 128 < 128 ^ room := by
          rw [Nat.pow_succ] at hvalue
          omega
        have hfit' : s.position + 1 + (varint room (value / 128)).length ≤ s.size := by omega
        have hnext := ih (s := s.seek (s.position + 1)) (i := i + 7) (h.seek (by omega)) hvalue'
          hroom' hr' (by omega) hdata.2 hfit'
        rw [readFuint8_eq h hdata.1 (by omega), Result.bind_done, if_neg hhigh, hpay,
          or_shiftLeft hr (by omega), hnext]
        simp only [seek_position, seek_seek]
        congr 1
        · omega
        · congr 1
          omega
      · -- the last byte
        have hcode : varint (room + 1) value = [UInt8.ofNat value] := by
          simp only [varint, if_neg hbig]
        have hbyte : (UInt8.ofNat value).toNat = value :=
          UInt8.toNat_ofNat_of_lt' (by rw [UInt8.size]; omega)
        rw [hcode] at hdata hfit ⊢
        have hlow : UInt8.ofNat value < 0x80 := by
          rw [UInt8.lt_iff_toNat_lt, hbyte]
          show value < 128
          omega
        rw [readFuint8_eq h hdata (by simpa using hfit), Result.bind_done, if_pos hlow, hbyte,
          or_shiftLeft hr hbits]
        rfl

theorem decodeZigzag32_encodeZigzag32 (v : Int32) : decodeZigzag32 (encodeZigzag32 v) = v := by
  unfold decodeZigzag32 encodeZigzag32
  apply Int32.toBitVec.inj
  split
  · rename_i hneg
    have hmsb : v.toBitVec.msb = true := by
      rw [← BitVec.slt_zero_eq_msb]
      exact Int32.lt_iff_toBitVec_slt.mp hneg
    simpa using zigzag_of_msb_true v.toBitVec hmsb
  · rename_i hpos
    have hmsb : v.toBitVec.msb = false := by
      rw [← BitVec.slt_zero_eq_msb]
      simpa [Int32.lt_iff_toBitVec_slt] using hpos
    simpa using zigzag_of_msb_false v.toBitVec hmsb

theorem decodeZigzag64_encodeZigzag64 (v : Int64) : decodeZigzag64 (encodeZigzag64 v) = v := by
  unfold decodeZigzag64 encodeZigzag64
  apply Int64.toBitVec.inj
  split
  · rename_i hneg
    have hmsb : v.toBitVec.msb = true := by
      rw [← BitVec.slt_zero_eq_msb]
      exact Int64.lt_iff_toBitVec_slt.mp hneg
    simpa using zigzag_of_msb_true v.toBitVec hmsb
  · rename_i hpos
    have hmsb : v.toBitVec.msb = false := by
      rw [← BitVec.slt_zero_eq_msb]
      simpa [Int64.lt_iff_toBitVec_slt] using hpos
    simpa using zigzag_of_msb_false v.toBitVec hmsb

theorem readUint32_eq (h : Wf s) {v : UInt32} (hdata : Holds s.bytes s.position (varint 5 v.toNat))
    (hfit : s.position + (varint 5 v.toNat).length ≤ s.size) :
    s.readUint32 = .done v (s.seek (s.position + (varint 5 v.toNat).length)) := by
  have hlt : v.toNat < 2 ^ 32 := v.toNat_lt
  unfold readUint32
  rw [readVarint_eq h (by omega) (by decide) (by decide) (by simpa using hlt) hdata hfit]
  simp

theorem readUint64_eq (h : Wf s) {v : UInt64} (hdata : Holds s.bytes s.position (varint 10 v.toNat))
    (hfit : s.position + (varint 10 v.toNat).length ≤ s.size) :
    s.readUint64 = .done v (s.seek (s.position + (varint 10 v.toNat).length)) := by
  have hlt : v.toNat < 2 ^ 64 := v.toNat_lt
  unfold readUint64
  rw [readVarint_eq h (by omega) (by decide) (by decide) (by simpa using hlt) hdata hfit]
  simp

/-! ## Every kind -/

/-- A number whose bytes stand at the position is read by the reader of its kind. -/
theorem readNum_eq (h : Wf s) (v : Num) (hdata : Holds s.bytes s.position (v.encode order s.endian))
    (hfit : s.position + (v.encode order s.endian).length ≤ s.size) :
    s.readNum order v.kind =
      .done v (s.seek (s.position + (v.encode order s.endian).length)) := by
  cases v with
  | fint8 v =>
      have hread := read_holds h (by simp [Num.encode]) hdata hfit
      unfold readNum Num.kind readFint8
      rw [show 1 = (Num.encode order s.endian (.fint8 v)).length from rfl, hread]
      simp [Num.encode]
  | fuint8 v =>
      have hread := readFuint8_eq h hdata hfit
      unfold readNum Num.kind
      rw [hread]
      rfl
  | fint16 v =>
      unfold readNum Num.kind readFint16
      rw [readFixed_eq h (by decide) v.toUInt16.toNat_lt hdata hfit]
      simp only [Result.map_done, UInt16.ofNat_toNat]
      rfl
  | fuint16 v =>
      unfold readNum Num.kind readFuint16
      rw [readFixed_eq h (by decide) v.toNat_lt hdata hfit]
      simp only [Result.map_done, UInt16.ofNat_toNat]
      rfl
  | fint32 v =>
      unfold readNum Num.kind readFint32
      rw [readFixed_eq h (by decide) v.toUInt32.toNat_lt hdata hfit]
      simp only [Result.map_done, UInt32.ofNat_toNat]
      rfl
  | fuint32 v =>
      unfold readNum Num.kind readFuint32
      rw [readFixed_eq h (by decide) v.toNat_lt hdata hfit]
      simp only [Result.map_done, UInt32.ofNat_toNat]
      rfl
  | fint64 v =>
      unfold readNum Num.kind readFint64
      rw [readFixed_eq h (by decide) v.toUInt64.toNat_lt hdata hfit]
      simp only [Result.map_done, UInt64.ofNat_toNat]
      rfl
  | fuint64 v =>
      unfold readNum Num.kind readFuint64
      rw [readFixed_eq h (by decide) v.toNat_lt hdata hfit]
      simp only [Result.map_done, UInt64.ofNat_toNat]
      rfl
  | int32 v =>
      unfold readNum Num.kind readInt32
      rw [readUint32_eq h hdata hfit]
      simp [Num.encode, decodeZigzag32_encodeZigzag32]
  | uint32 v =>
      unfold readNum Num.kind
      rw [readUint32_eq h hdata hfit]
      rfl
  | int64 v =>
      unfold readNum Num.kind readInt64
      rw [readUint64_eq h hdata hfit]
      simp [Num.encode, decodeZigzag64_encodeZigzag64]
  | uint64 v =>
      unfold readNum Num.kind
      rw [readUint64_eq h hdata hfit]
      rfl
  | float v =>
      unfold readNum Num.kind readFloat readFuint32
      rw [readFixed_eq h (by decide) v.toNat_lt hdata hfit]
      simp only [Result.map_done, UInt32.ofNat_toNat]
      rfl
  | double v =>
      unfold readNum Num.kind readDouble readFuint64
      rw [readFixed_eq h (by decide) v.toNat_lt hdata hfit]
      simp only [Result.map_done, UInt64.ofNat_toNat]
      rfl

/-! ## Lists of numbers -/

/-- A number and the argument of the `setIsLittleEndian` call before it. -/
abbrev Entry := Bool × Num

def writeAll (order : Endian) (s : ByteArray) : List Entry → Result Unit
  | [] => .done () s
  | (little, v) :: rest =>
      ((s.setIsLittleEndian little).writeNum order v).bind fun _ s => writeAll order s rest

def readAll (order : Endian) (s : ByteArray) : List (Bool × NumKind) → Result (List Num)
  | [] => .done [] s
  | (little, kind) :: rest =>
      ((s.setIsLittleEndian little).readNum order kind).bind fun v s =>
        (readAll order s rest).map (v :: ·)

/-- The bytes of a list. -/
def encodeAll (order : Endian) (l : List Entry) : List UInt8 :=
  l.flatMap fun e => e.2.encode order (if e.1 then .little else .big)

theorem encodeAll_cons (order : Endian) (little : Bool) (v : Num) (rest : List Entry) :
    encodeAll order ((little, v) :: rest) =
      v.encode order (if little then .little else .big) ++ encodeAll order rest :=
  List.flatMap_cons

theorem varint_ne_nil {room : Nat} (h : 0 < room) (value : Nat) : varint room value ≠ [] := by
  cases room with
  | zero => omega
  | succ room =>
      unfold varint
      split <;> simp

theorem Num.length_encode_pos (order endian : Endian) (v : Num) :
    0 < (v.encode order endian).length := by
  cases v with
  | fint8 v | fuint8 v => exact Nat.one_pos
  | int32 v | uint32 v | int64 v | uint64 v =>
      exact List.length_pos_of_ne_nil (varint_ne_nil (by decide) _)
  | _ =>
      refine Nat.lt_of_lt_of_eq ?_ (length_layout _ _ _).symm
      decide

theorem Wf.setIsLittleEndian (h : Wf s) (val : Bool) : Wf (s.setIsLittleEndian val) :=
  ⟨h.base, h.blocks, h.root, h.capacity, h.position, h.size, h.cur, h.small⟩

/-- What has happened to the bytes when `data` was written from the position on. -/
structure Written (s s' : ByteArray) (data : List UInt8) : Prop where
  wf : Wf s'
  position : s'.position = s.position + data.length
  holds : Holds s'.bytes s.position data
  outside : ∀ j, j < s.capacity → j < s.position ∨ s.position + data.length ≤ j →
    s'.bytes[j]? = s.bytes[j]?
  capacity : s'.capacity = max s.capacity (roundUp s.baseSize (s.position + data.length))
  size : s'.size = max s.size (s.position + data.length)
  baseSize : s'.baseSize = s.baseSize

theorem Written.refl (h : Wf s) : Written s s [] where
  wf := h
  position := rfl
  holds := fun _ hi => absurd hi (by simp)
  outside := fun _ _ _ => rfl
  capacity := by
    have hle : roundUp s.baseSize s.position ≤ s.capacity := by
      rw [h.capacity]
      exact roundUp_le h.base (h.capacity ▸ h.position.trans h.size)
    exact (Nat.max_eq_left hle).symm
  size := by
    have := h.position
    simp only [List.length_nil]
    omega
  baseSize := rfl

theorem Written.capacity_le {data : List UInt8} (h : Written s s' data) :
    s.capacity ≤ s'.capacity := by
  rw [h.capacity]
  exact Nat.le_max_left _ _

/-- `write` of at least one byte. -/
theorem written_write (h : Wf s) {buf : List UInt8} (h53 : s.position + buf.length < 2 ^ 53)
    (hbuf : 0 < buf.length) : ∃ s', s.write buf = .done () s' ∧ Written s s' buf := by
  obtain ⟨s', new, heq, hwf, hbytes, hcap, hpos, hsize, -, hbase⟩ := write_eq h h53 hbuf
  have hlen := h.length_bytes
  have hle : s.position ≤ (s.bytes ++ new).length := by
    have := h.position
    have := h.size
    rw [List.length_append]
    omega
  refine ⟨s', heq, hwf, hpos, ?_, ?_, hcap, hsize, hbase⟩
  · rw [hbytes]
    exact holds_splice hle
  · intro j hj hout
    rw [hbytes, getElem?_splice hle hout, List.getElem?_append_left (by omega)]

/-- Data written one after the other. -/
theorem Written.trans {t : ByteArray} {x y : List UInt8} (h : Wf s) (hx : Written s t x)
    (hy : Written t s' y) : Written s s' (x ++ y) := by
  have hsize := h.size
  have hend := hx.wf.size
  have hpos := hx.position
  have hmax := hx.size
  refine ⟨hy.wf, ?_, ?_, ?_, ?_, ?_, hy.baseSize.trans hx.baseSize⟩
  · rw [hy.position, hpos, List.length_append, Nat.add_assoc]
  · rw [holds_append]
    refine ⟨hx.holds.congr ?_, ?_⟩
    · intro i hi
      exact hy.outside _ (by omega) (.inl (by omega))
    · rw [← hpos]
      exact hy.holds
  · intro j hj hout
    rw [List.length_append] at hout
    have hcap := hx.capacity_le
    rw [hy.outside j (by omega) (by omega), hx.outside j hj (by omega)]
  · have hmono : roundUp s.baseSize (s.position + x.length) ≤
        roundUp s.baseSize (s.position + (x.length + y.length)) :=
      roundUp_mono (by omega)
    rw [hy.capacity, hx.capacity, hpos, hx.baseSize, List.length_append, Nat.add_assoc]
    omega
  · rw [hy.size, hmax, hpos, List.length_append]
    omega

theorem writeAll_written (h : Wf s) (l : List Entry)
    (h53 : s.position + (encodeAll order l).length < 2 ^ 53) :
    ∃ s', writeAll order s l = .done () s' ∧ Written s s' (encodeAll order l) := by
  induction l generalizing s with
  | nil => exact ⟨s, rfl, .refl h⟩
  | cons e rest ih =>
      obtain ⟨little, v⟩ := e
      rw [encodeAll_cons, List.length_append] at h53
      have hset := h.setIsLittleEndian little
      have hroom :
          s.position + (v.encode order (if little then .little else .big)).length < 2 ^ 53 := by
        omega
      obtain ⟨t, heq, ht⟩ := written_write (s := s.setIsLittleEndian little) hset hroom
        (v.length_encode_pos _ _)
      have ht' : Written s t (v.encode order (if little then .little else .big)) :=
        ⟨ht.wf, ht.position, ht.holds, ht.outside, ht.capacity, ht.size, ht.baseSize⟩
      obtain ⟨s', heq', hs'⟩ := ih ht.wf (by rw [ht'.position]; omega)
      refine ⟨s', ?_, encodeAll_cons order little v rest ▸ ht'.trans h hs'⟩
      unfold writeAll
      rw [writeNum_eq, show (s.setIsLittleEndian little).endian =
        (if little then .little else .big) from rfl, heq]
      exact heq'

/-- Numbers whose bytes stand at the position are read one after the other. -/
theorem readAll_eq (h : Wf s) (l : List Entry)
    (hdata : Holds s.bytes s.position (encodeAll order l))
    (hfit : s.position + (encodeAll order l).length ≤ s.size) :
    ∃ s', readAll order s (l.map fun e => (e.1, e.2.kind)) = .done (l.map Prod.snd) s' ∧
      Wf s' ∧ s'.position = s.position + (encodeAll order l).length ∧ s'.bytes = s.bytes ∧
      s'.size = s.size := by
  induction l generalizing s with
  | nil => exact ⟨s, rfl, h, rfl, rfl, rfl⟩
  | cons e rest ih =>
      obtain ⟨little, v⟩ := e
      rw [encodeAll_cons, holds_append] at hdata
      rw [encodeAll_cons, List.length_append] at hfit ⊢
      have hset := h.setIsLittleEndian little
      have hread : (s.setIsLittleEndian little).readNum order v.kind =
          .done v ((s.setIsLittleEndian little).seek (s.position +
            (v.encode order (if little then .little else .big)).length)) :=
        readNum_eq hset v hdata.1 (by
          show s.position + (v.encode order (if little then .little else .big)).length ≤ s.size
          omega)
      generalize v.encode order (if little then .little else .big) = x at hdata hfit hread ⊢
      have hwf : Wf ((s.setIsLittleEndian little).seek (s.position + x.length)) :=
        hset.seek (by show s.position + x.length ≤ s.size; omega)
      obtain ⟨s', heq, hwf', hpos', hbytes', hsize'⟩ := ih hwf hdata.2 (by
        show s.position + x.length + _ ≤ s.size
        omega)
      refine ⟨s', ?_, hwf', ?_, hbytes', hsize'⟩
      · unfold readAll
        simp only [List.map_cons]
        rw [hread, Result.bind_done, heq]
        rfl
      · rw [hpos']
        show s.position + x.length + _ = _
        omega

/-- Going back to where the writing began. -/
theorem setPosition_back (h : Wf s) {p : Nat} (hp : p ≤ s.size) :
    s.setPosition p = .done () (s.seek p) := by
  rw [setPosition_eq h (hp.trans h.size), Nat.max_eq_left hp]

/-- Write a list of numbers of mixed kinds, each under its own endianness, from any position of
any byte array reached; go back; and read the same kinds under the same settings. The list
comes back, the position is behind what was written, and no other byte has changed. -/
theorem numbers_round_trip (hb : 0 < b) (hb53 : b < 2 ^ 53)
    (h : (byteArraySys order b).Reaches Sized s) (l : List Entry)
    (h53 : s.position + (encodeAll order l).length < 2 ^ 53) :
    ∃ s₁ s₂, writeAll order s l = .done () s₁ ∧
      ((s₁.setPosition s.position).bind fun _ t =>
        readAll order t (l.map fun e => (e.1, e.2.kind))) = .done (l.map Prod.snd) s₂ ∧
      s₁.position = s.position + (encodeAll order l).length ∧ s₂.position = s₁.position ∧
      s₂.bytes = s₁.bytes ∧
      ∀ j, j < s.capacity → j < s.position ∨ s₁.position ≤ j → s₁.bytes[j]? = s.bytes[j]? := by
  have hwf : Wf s := (wf_inductive hb hb53).invariant h
  obtain ⟨s₁, hwrite, hw⟩ := writeAll_written hwf l h53
  have hend := hw.wf.position
  have hpos := hw.position
  obtain ⟨s₂, hread, -, hpos₂, hbytes₂, -⟩ := readAll_eq (s := s₁.seek s.position)
    (hw.wf.seek (by omega)) l hw.holds (by simp only [seek_position, seek_size]; omega)
  refine ⟨s₁, s₂, hwrite, ?_, hpos, ?_, hbytes₂, ?_⟩
  · rw [setPosition_back hw.wf (by omega), Result.bind_done]
    exact hread
  · rw [hpos₂, hpos]
    rfl
  · intro j hj hout
    exact hw.outside j hj (by omega)

/-- Both ends of the signed types and both byte orders, across blocks of three bytes. -/
def extremes : List Entry :=
  [(true, .int32 Int32.minValue), (false, .fint16 Int16.minValue), (true, .fuint32 0xDEADBEEF),
    (false, .int64 Int64.maxValue), (true, .double 0x7FF0000000000001)]

theorem numbers_round_trip_extremes : ∃ s₁ s₂ : ByteArray,
    writeAll .little (new 3 fun _ _ => 0) extremes = .done () s₁ ∧
    ((s₁.setPosition 0).bind fun _ t =>
      readAll .little t (extremes.map fun e => (e.1, e.2.kind))) =
        .done (extremes.map Prod.snd) s₂ ∧ s₂.position = 29 := by
  have hlen : (encodeAll .little extremes).length = 29 := by decide +kernel
  have hinit : (byteArraySys .little 3).Reaches Sized (new 3 fun _ _ => 0) := .init ⟨_, rfl⟩
  obtain ⟨s₁, s₂, hwrite, hread, hpos₁, hpos₂, -, -⟩ :=
    numbers_round_trip (by decide) (by decide) hinit extremes (by rw [hlen]; decide)
  refine ⟨s₁, s₂, hwrite, hread, ?_⟩
  rw [hpos₂, hpos₁, hlen]
  rfl

end Gxh.ByteArray
