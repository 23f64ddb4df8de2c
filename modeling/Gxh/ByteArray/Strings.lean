import Gxh.ByteArray.Numbers

/-!
# Strings written and read back

A string is its length field and its bytes. `readString*` resizes the string to the length it
has read and calls `read` for that many bytes, also for none. `read` takes the size of the
block of the position before it looks at the length, so an empty string whose length field
ends with the last block is read through a null pointer (`readString_eq`). This is the only
string of a list that does not come back, and it can only be the last one.
-/

namespace Gxh.ByteArray

variable {s s' : ByteArray} {order : Endian} {b : Nat}

/-! ## One string -/

/-- The bytes of a string with its length field. -/
def encodeString (order endian : Endian) (kind : StrKind) (value : List UInt8) : List UInt8 :=
  (kind.header value.length).encode order endian ++ value

/-- Lengths below this one fit the length field. -/
def StrKind.limit : StrKind → Nat
  | .F16 => 2 ^ 16
  | .F32 => 2 ^ 32
  | .F64 => 2 ^ 64
  | .Vint => 2 ^ 64

theorem length_encodeString_pos (order endian : Endian) (kind : StrKind) (value : List UInt8) :
    0 < (encodeString order endian kind value).length := by
  have := (kind.header value.length).length_encode_pos order endian
  rw [encodeString, List.length_append]
  omega

/-- `write`, of no bytes too. -/
theorem written_write_any (h : Wf s) (buf : List UInt8)
    (h53 : s.position + buf.length < 2 ^ 53) :
    ∃ s', s.write buf = .done () s' ∧ Written s s' buf := by
  cases buf with
  | nil => exact ⟨s, write_nil s, .refl h⟩
  | cons x rest => exact written_write h h53 (by simp)

theorem writeString_written (h : Wf s) (kind : StrKind) (value : List UInt8)
    (h53 : s.position + (encodeString order s.endian kind value).length < 2 ^ 53) :
    ∃ s', s.writeString order kind value = .done () s' ∧
      Written s s' (encodeString order s.endian kind value) := by
  unfold encodeString at h53 ⊢
  rw [List.length_append] at h53
  obtain ⟨t, hhead, ht⟩ := written_write (s := s) h (by omega)
    ((kind.header value.length).length_encode_pos order s.endian)
  obtain ⟨s', hbody, hs'⟩ := written_write_any ht.wf value (by rw [ht.position]; omega)
  refine ⟨s', ?_, ht.trans h hs'⟩
  rw [writeString_eq, writeNum_eq, hhead, Result.bind_done, hbody]

/-- The length field is read, and as many bytes from behind it. -/
theorem readString_header (h : Wf s) (kind : StrKind) {n : Nat} (hn : n < kind.limit)
    (hdata : Holds s.bytes s.position ((kind.header n).encode order s.endian))
    (hfit : s.position + ((kind.header n).encode order s.endian).length ≤ s.size) :
    s.readString order kind =
      (s.seek (s.position + ((kind.header n).encode order s.endian).length)).read n := by
  cases kind with
  | F16 =>
      unfold readString readStringF16 readFuint16
      rw [readFixed_eq h (by decide) (UInt16.ofNat n).toNat_lt hdata hfit]
      simp only [Result.map_done, Result.bind_done, UInt16.ofNat_toNat]
      exact congrArg (s.seek _).read (UInt16.toNat_ofNat_of_lt' hn)
  | F32 =>
      unfold readString readStringF32 readFuint32
      rw [readFixed_eq h (by decide) (UInt32.ofNat n).toNat_lt hdata hfit]
      simp only [Result.map_done, Result.bind_done, UInt32.ofNat_toNat]
      exact congrArg (s.seek _).read (UInt32.toNat_ofNat_of_lt' hn)
  | F64 =>
      unfold readString readStringF64 readFuint64
      rw [readFixed_eq h (by decide) (UInt64.ofNat n).toNat_lt hdata hfit]
      simp only [Result.map_done, Result.bind_done, UInt64.ofNat_toNat]
      exact congrArg (s.seek _).read (UInt64.toNat_ofNat_of_lt' hn)
  | Vint =>
      unfold readString readStringVint
      rw [readUint64_eq h hdata hfit, Result.bind_done]
      exact congrArg (s.seek _).read (UInt64.toNat_ofNat_of_lt' hn)

/-- A string whose bytes stand at the position is read, unless it is empty and nothing is behind
it in the chain. -/
theorem readString_eq (h : Wf s) (kind : StrKind) {value : List UInt8}
    (hn : value.length < kind.limit)
    (hdata : Holds s.bytes s.position (encodeString order s.endian kind value))
    (hfit : s.position + (encodeString order s.endian kind value).length ≤ s.size) :
    s.readString order kind =
      if value = [] ∧ s.position + (encodeString order s.endian kind value).length = s.capacity
      then .crash
      else .done value (s.seek (s.position + (encodeString order s.endian kind value).length)) := by
  unfold encodeString at hdata hfit ⊢
  rw [holds_append] at hdata
  rw [List.length_append] at hfit ⊢
  rw [readString_header h kind hn hdata.1 (by omega)]
  generalize (kind.header value.length).encode order s.endian = field at hdata hfit ⊢
  have hseek : Wf (s.seek (s.position + field.length)) := h.seek (by omega)
  cases value with
  | nil =>
      show (s.seek (s.position + field.length)).read 0 = _
      rw [read_zero hseek]
      simp only [List.length_nil, Nat.add_zero, true_and, seek_position, seek_capacity]
      rfl
  | cons x rest =>
      have hread := read_holds hseek (by simp) hdata.2 (by
        rw [seek_position, seek_size]
        omega)
      rw [hread, if_neg (by simp), seek_position, seek_seek, Nat.add_assoc]

/-! ## Lists of strings -/

/-- A string with its length field and the argument of the `setIsLittleEndian` call before it. -/
structure StrEntry where
  little : Bool
  kind : StrKind
  value : List UInt8
  deriving DecidableEq, Repr

/-- The endianness a string is written under. -/
def StrEntry.endian (e : StrEntry) : Endian := if e.little then .little else .big

def writeStrings (order : Endian) (s : ByteArray) : List StrEntry → Result Unit
  | [] => .done () s
  | e :: rest =>
      ((s.setIsLittleEndian e.little).writeString order e.kind e.value).bind fun _ s =>
        writeStrings order s rest

def readStrings (order : Endian) (s : ByteArray) :
    List (Bool × StrKind) → Result (List (List UInt8))
  | [] => .done [] s
  | (little, kind) :: rest =>
      ((s.setIsLittleEndian little).readString order kind).bind fun value s =>
        (readStrings order s rest).map (value :: ·)

/-- The bytes of a list. -/
def encodeStrings (order : Endian) (l : List StrEntry) : List UInt8 :=
  l.flatMap fun e => encodeString order e.endian e.kind e.value

theorem encodeStrings_cons (order : Endian) (e : StrEntry) (rest : List StrEntry) :
    encodeStrings order (e :: rest) =
      encodeString order e.endian e.kind e.value ++ encodeStrings order rest :=
  List.flatMap_cons

/-- The last string of the list is empty. -/
def LastEmpty (l : List StrEntry) : Prop := (l.map StrEntry.value).getLast? = some []

instance (l : List StrEntry) : Decidable (LastEmpty l) :=
  inferInstanceAs (Decidable (_ = _))

theorem lastEmpty_single (e : StrEntry) : LastEmpty [e] ↔ e.value = [] := by
  simp [LastEmpty]

theorem lastEmpty_cons {e : StrEntry} {rest : List StrEntry} (h : rest ≠ []) :
    LastEmpty (e :: rest) ↔ LastEmpty rest := by
  cases rest with
  | nil => exact absurd rfl h
  | cons x rest =>
      unfold LastEmpty
      rw [List.map_cons, List.map_cons, List.getLast?_cons_cons]

theorem writeStrings_written (h : Wf s) (l : List StrEntry)
    (h53 : s.position + (encodeStrings order l).length < 2 ^ 53) :
    ∃ s', writeStrings order s l = .done () s' ∧ Written s s' (encodeStrings order l) := by
  induction l generalizing s with
  | nil => exact ⟨s, rfl, .refl h⟩
  | cons e rest ih =>
      rw [encodeStrings_cons, List.length_append] at h53
      have hset := h.setIsLittleEndian e.little
      have hroom : s.position + (encodeString order e.endian e.kind e.value).length < 2 ^ 53 := by
        omega
      obtain ⟨t, heq, ht⟩ := writeString_written hset e.kind e.value hroom
      have ht' : Written s t (encodeString order e.endian e.kind e.value) :=
        ⟨ht.wf, ht.position, ht.holds, ht.outside, ht.capacity, ht.size, ht.baseSize⟩
      obtain ⟨s', heq', hs'⟩ := ih ht.wf (by rw [ht'.position]; omega)
      refine ⟨s', ?_, encodeStrings_cons order e rest ▸ ht'.trans h hs'⟩
      unfold writeStrings
      rw [heq]
      exact heq'

/-- Strings whose bytes stand at the position are read one after the other, up to an empty one
at the end of the chain. -/
theorem readStrings_eq (h : Wf s) (l : List StrEntry)
    (hshort : ∀ e ∈ l, e.value.length < e.kind.limit)
    (hdata : Holds s.bytes s.position (encodeStrings order l))
    (hfit : s.position + (encodeStrings order l).length ≤ s.size) :
    ∃ s', readStrings order s (l.map fun e => (e.little, e.kind)) =
      if LastEmpty l ∧ s.position + (encodeStrings order l).length = s.capacity then .crash
      else .done (l.map StrEntry.value) s' := by
  induction l generalizing s with
  | nil => exact ⟨s, by simp [readStrings, LastEmpty]⟩
  | cons e rest ih =>
      have hcap := h.size
      rw [encodeStrings_cons, holds_append] at hdata
      rw [encodeStrings_cons, List.length_append] at hfit ⊢
      have hset := h.setIsLittleEndian e.little
      have hread := readString_eq hset e.kind
        (hshort e (by simp)) hdata.1 (by
          show s.position + (encodeString order e.endian e.kind e.value).length ≤ s.size
          omega)
      rw [show (s.setIsLittleEndian e.little).endian = e.endian from rfl,
        show (s.setIsLittleEndian e.little).position = s.position from rfl,
        show (s.setIsLittleEndian e.little).capacity = s.capacity from rfl] at hread
      generalize encodeString order e.endian e.kind e.value = x at hdata hfit hread ⊢
      unfold readStrings
      simp only [List.map_cons]
      rw [hread]
      cases rest with
      | nil =>
          -- this is the last string: its own read decides
          refine ⟨(s.setIsLittleEndian e.little).seek (s.position + x.length), ?_⟩
          have hlast : LastEmpty [e] ∧ s.position + (x.length + (encodeStrings order []).length) =
              s.capacity ↔ e.value = [] ∧ s.position + x.length = s.capacity := by
            rw [lastEmpty_single]
            rfl
          simp only [hlast]
          split
          · rfl
          · rfl
      | cons e' rest =>
          -- there are bytes behind this string, so its block pointer is not null
          have hpos : 0 < (encodeStrings order (e' :: rest)).length := by
            have := length_encodeString_pos order e'.endian e'.kind e'.value
            rw [encodeStrings_cons, List.length_append]
            omega
          have hwf : Wf ((s.setIsLittleEndian e.little).seek (s.position + x.length)) :=
            hset.seek (by show s.position + x.length ≤ s.size; omega)
          obtain ⟨s', hrest⟩ := ih hwf (fun e he => hshort e (List.mem_cons_of_mem _ he)) hdata.2
            (by show s.position + x.length + _ ≤ s.size; omega)
          refine ⟨s', ?_⟩
          have hlast : LastEmpty (e :: e' :: rest) ↔ LastEmpty (e' :: rest) :=
            lastEmpty_cons (by simp)
          have hcap' : ((s.setIsLittleEndian e.little).seek (s.position + x.length)).capacity =
            s.capacity := rfl
          rw [if_neg (by omega), Result.bind_done, hrest]
          simp only [hlast, seek_position, hcap', Nat.add_assoc]
          split
          · rfl
          · rfl

/-- What the round trip of a list of strings is to do: the list comes back. A `crash` on the way
is no result. -/
def StringsRoundTrip (order : Endian) (s : ByteArray) (l : List StrEntry) : Prop :=
  ∃ s₁ s₂, writeStrings order s l = .done () s₁ ∧
    ((s₁.setPosition s.position).bind fun _ t =>
      readStrings order t (l.map fun e => (e.little, e.kind))) = .done (l.map StrEntry.value) s₂

/-- The strings end where the chain ends after they were written. -/
theorem Written.full_iff {data : List UInt8} (h : Wf s) (hw : Written s s' data) :
    s.position + data.length = s'.capacity ↔
      s.capacity ≤ s.position + data.length ∧ s.baseSize ∣ s.position + data.length := by
  have hround := le_roundUp h.base (s.position + data.length)
  rw [hw.capacity]
  constructor
  · intro heq
    refine ⟨by omega, ?_⟩
    by_cases hle : roundUp s.baseSize (s.position + data.length) ≤ s.capacity
    · rw [heq, Nat.max_eq_left hle, h.capacity]
      exact Nat.dvd_mul_left _ _
    · rw [heq, Nat.max_eq_right (by omega)]
      exact Nat.dvd_mul_left _ _
  · rintro ⟨hle, k, hk⟩
    have hup : roundUp s.baseSize (s.position + data.length) ≤ k * s.baseSize :=
      roundUp_le h.base (by rw [hk, Nat.mul_comm])
    rw [Nat.mul_comm] at hup
    omega

/-- From any position of any byte array reached, a list of strings short enough for their length
fields comes back if and only if the last one is not empty, or does not end with the chain:
the chain has bytes behind it already, or its last block is not filled. -/
theorem strings_round_trip (hb : 0 < b) (hb53 : b < 2 ^ 53)
    (h : (byteArraySys order b).Reaches Sized s) (l : List StrEntry)
    (hshort : ∀ e ∈ l, e.value.length < e.kind.limit)
    (h53 : s.position + (encodeStrings order l).length < 2 ^ 53) :
    StringsRoundTrip order s l ↔
      ¬ (LastEmpty l ∧ s.capacity ≤ s.position + (encodeStrings order l).length ∧
        s.baseSize ∣ s.position + (encodeStrings order l).length) := by
  have hwf : Wf s := (wf_inductive hb hb53).invariant h
  obtain ⟨s₁, hwrite, hw⟩ := writeStrings_written hwf l h53
  have hend := hw.wf.position
  have hpos := hw.position
  obtain ⟨s₂, hread⟩ := readStrings_eq (s := s₁.seek s.position) (hw.wf.seek (by omega)) l hshort
    hw.holds (by simp only [seek_position, seek_size]; omega)
  rw [seek_position, seek_capacity] at hread
  rw [← hw.full_iff hwf]
  unfold StringsRoundTrip
  constructor
  · rintro ⟨t, s₂', ht, hback⟩ hbad
    rw [hwrite] at ht
    cases ht
    rw [setPosition_back hw.wf (by omega), Result.bind_done, hread, if_pos hbad] at hback
    cases hback
  · intro hgood
    refine ⟨s₁, s₂, hwrite, ?_⟩
    rw [setPosition_back hw.wf (by omega), Result.bind_done, hread, if_neg hgood]

/-- Blocks of two bytes, one empty string: the length field fills the block. -/
theorem strings_round_trip_null :
    (byteArraySys .little 2).Reaches Sized (new 2 fun _ _ => 0) ∧
    ¬ StringsRoundTrip .little (new 2 fun _ _ => 0) [⟨true, .F16, []⟩] := by
  refine ⟨.init ⟨_, rfl⟩, ?_⟩
  rintro ⟨s₁, s₂, hwrite, hread⟩
  cases hwrite
  cases hread

theorem strings_round_trip_mixed :
    StringsRoundTrip .little (new 2 fun _ _ => 0)
      [⟨true, .F16, []⟩, ⟨false, .Vint, [97, 98]⟩, ⟨false, .F32, []⟩] := by
  have hinit : (byteArraySys .little 2).Reaches Sized (new 2 fun _ _ => 0) := .init ⟨_, rfl⟩
  exact (strings_round_trip (by decide) (by decide) hinit _ (by decide) (by decide)).mpr
    (by decide)

end Gxh.ByteArray
