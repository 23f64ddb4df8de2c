import Gxh.ByteArray.Failing

/-!
# Strings behind a sixteen-bit length

`writeStringF16` passes the `size_t` of the string to `writeFuint16`, which keeps its low sixteen
bits, and then writes all the bytes. `readStringF16` takes as many bytes as the field says, and the
value behind the string is read from the middle of it. Nothing is refused: a string comes back
together with what was written behind it if and only if it is shorter than `2 ^ 16`
(`short_strings_synced`).
-/

namespace Gxh.ByteArray

variable {s s' : ByteArray} {b : Nat} {order : Endian}

/-! ## Values -/

/-- What is written behind the string, with the writer it is for. -/
inductive Value
  | num (v : Num)
  | str (kind : StrKind) (value : List UInt8)
  deriving DecidableEq, Repr

namespace Value

def item : Value → Item
  | num v => .num v.kind
  | str kind _ => .str kind

/-- What the reader returns for the value. -/
def result : Value → Num ⊕ List UInt8
  | num v => .inl v
  | str _ value => .inr value

def encode (order endian : Endian) : Value → List UInt8
  | num v => v.encode order endian
  | str kind value => encodeString order endian kind value

/-- The length field can express a string. -/
def Fits : Value → Prop
  | num _ => True
  | str kind value => value.length < kind.limit

def isEmpty : Value → Bool
  | num _ => false
  | str _ value => value = []

end Value

def writeValue (order : Endian) (s : ByteArray) : Value → Result Unit
  | .num v => s.writeNum order v
  | .str kind value => s.writeString order kind value

theorem Value.length_encode_pos (order endian : Endian) (v : Value) :
    0 < (v.encode order endian).length := by
  cases v with
  | num v => exact v.length_encode_pos order endian
  | str kind value => exact length_encodeString_pos order endian kind value

theorem writeValue_written (h : Wf s) (v : Value)
    (h53 : s.position + (v.encode order s.endian).length < 2 ^ 53) :
    ∃ s', s.writeValue order v = .done () s' ∧ Written s s' (v.encode order s.endian) := by
  cases v with
  | num v =>
      obtain ⟨s', heq, hw⟩ := written_write h h53 (v.length_encode_pos order s.endian)
      exact ⟨s', (writeNum_eq order s v).trans heq, hw⟩
  | str kind value => exact writeString_written h kind value h53

/-- A value whose bytes stand at the position is read, unless it is an empty string with nothing
behind it in the chain. -/
theorem readItem_eq (h : Wf s) {v : Value} (hfits : v.Fits)
    (hdata : Holds s.bytes s.position (v.encode order s.endian))
    (hfit : s.position + (v.encode order s.endian).length ≤ s.size) :
    s.readItem order v.item =
      if v.isEmpty ∧ s.position + (v.encode order s.endian).length = s.capacity then .crash
      else .done v.result (s.seek (s.position + (v.encode order s.endian).length)) := by
  cases v with
  | num v =>
      show (s.readNum order v.kind).map Sum.inl = _
      rw [readNum_eq h v hdata hfit, if_neg fun hand => Bool.false_ne_true hand.1]
      rfl
  | str kind value =>
      show (s.readString order kind).map Sum.inr = _
      rw [readString_eq h kind hfits hdata hfit]
      by_cases hend : value = [] ∧
          s.position + (encodeString order s.endian kind value).length = s.capacity
      · rw [if_pos hend, if_pos ⟨decide_eq_true hend.1, hend.2⟩]
        rfl
      · rw [if_neg hend, if_neg fun hand => hend ⟨of_decide_eq_true hand.1, hand.2⟩]
        rfl

/-! ## What a reader cannot return -/

theorem readNodes_length {nodes : List (List UInt8)} {npos n k : Nat} {l : List UInt8}
    (h : readNodes nodes npos n = some (l, k)) : l.length = n := by
  induction nodes generalizing npos n k l with
  | nil => cases h
  | cons node rest ih =>
      simp only [readNodes] at h
      split at h
      · rename_i hroom
        cases h
        rw [List.length_take, List.length_drop]
        omega
      · obtain ⟨⟨l', k'⟩, hrest, heq⟩ := Option.map_eq_some_iff.mp h
        cases heq
        have hlen := ih hrest
        rw [List.length_append, List.length_drop, hlen]
        omega

theorem read_length {n : Nat} {l : List UInt8} (h : s.read n = .done l s') : l.length = n := by
  unfold read at h
  split at h
  · cases h
  · split at h
    · cases h
    · rename_i bytes steps hfrom
      cases h
      unfold readFrom at hfrom
      split at hfrom
      · cases hfrom
      · split at hfrom
        · rename_i hzero
          cases hfrom
          exact hzero.symm
        · exact readNodes_length hfrom

theorem Result.of_map_done {α β : Type} {r : Result α} {f : α → β} {y : β}
    (h : r.map f = .done y s') : ∃ x, r = .done x s' ∧ f x = y := by
  cases r with
  | done x t =>
      cases h
      exact ⟨x, rfl, rfl⟩
  | thrown e t => cases h
  | crash => cases h

theorem Result.of_bind_done {α β : Type} {r : Result α} {f : α → ByteArray → Result β} {y : β}
    (h : r.bind f = .done y s') : ∃ x t, r = .done x t ∧ f x t = .done y s' := by
  cases r with
  | done x t => exact ⟨x, t, rfl, h⟩
  | thrown e t => cases h
  | crash => cases h

/-- The length field is read as one of its own values. -/
theorem announced_lt {kind : StrKind} {n : Nat} (h : announced order s kind = .done n s') :
    n < kind.limit := by
  cases kind with
  | F16 =>
      obtain ⟨v, -, rfl⟩ := Result.of_map_done h
      exact v.toNat_lt
  | F32 =>
      obtain ⟨v, -, rfl⟩ := Result.of_map_done h
      exact v.toNat_lt
  | F64 =>
      obtain ⟨v, -, rfl⟩ := Result.of_map_done h
      exact v.toNat_lt
  | Vint =>
      obtain ⟨v, -, rfl⟩ := Result.of_map_done h
      exact v.toNat_lt

theorem readString_lt {kind : StrKind} {l : List UInt8}
    (h : s.readString order kind = .done l s') : l.length < kind.limit := by
  rw [readString_announced] at h
  obtain ⟨n, t, hannounced, hread⟩ := Result.of_bind_done h
  rw [read_length hread]
  exact announced_lt hannounced

/-- A value that comes back fits its length field. -/
theorem fits_of_readItem {v : Value} (h : s.readItem order v.item = .done v.result s') :
    v.Fits := by
  cases v with
  | num v => trivial
  | str kind value =>
      obtain ⟨l, hread, hl⟩ := Result.of_map_done h
      cases hl
      exact readString_lt hread

/-! ## A string and a value behind it -/

/-- Read a string and then the item of a value. -/
def readBoth (order : Endian) (s : ByteArray) (v : Value) :
    Result (List UInt8 × (Num ⊕ List UInt8)) :=
  (s.readStringF16 order).bind fun value s =>
    (s.readItem order v.item).map fun x => (value, x)

/-- If `writeStringF16` returns, the string and the value written behind it come back from the
position where the string was written; and a string too long for the field is refused, with the
array as it was. -/
structure Synced (order : Endian) (s : ByteArray) (value : List UInt8) (v : Value) : Prop where
  back : ∀ s₁, s.writeStringF16 order value = .done () s₁ →
    ∃ s₂ s₃, s₁.writeValue order v = .done () s₂ ∧
      ((s₂.setPosition s.position).bind fun _ t => t.readBoth order v) =
        .done (value, v.result) s₃
  refused : 2 ^ 16 ≤ value.length → ∃ e, s.writeStringF16 order value = .thrown e s

/-- The bytes of both. -/
def encodeBoth (order endian : Endian) (value : List UInt8) (v : Value) : List UInt8 :=
  encodeString order endian .F16 value ++ v.encode order endian

theorem addCapacity_endian (s : ByteArray) (size : Nat) :
    (s.addCapacity size).endian = s.endian := by
  unfold addCapacity
  split
  · rfl
  · dsimp only
    split
    · rfl
    · rfl

/-- Writing leaves the byte order that is set. -/
theorem write_endian {buf : List UInt8} (h : s.write buf = .done () s') :
    s'.endian = s.endian := by
  unfold write at h
  split at h
  · cases h
    rfl
  · unfold fill at h
    split at h
    · cases h
    · split at h
      · cases h
      · cases h
        exact addCapacity_endian s _

theorem writeString_endian {kind : StrKind} {value : List UInt8}
    (h : s.writeString order kind value = .done () s') : s'.endian = s.endian := by
  rw [writeString_eq, writeNum_eq] at h
  obtain ⟨_, t, hheader, hbytes⟩ := Result.of_bind_done h
  rw [write_endian hbytes, write_endian hheader]

theorem writeValue_endian {v : Value} (h : s.writeValue order v = .done () s') :
    s'.endian = s.endian := by
  cases v with
  | num v => exact write_endian ((writeNum_eq order s v).symm.trans h)
  | str kind value => exact writeString_endian h

theorem written_both (h : Wf s) (value : List UInt8) (v : Value)
    (h53 : s.position + (encodeBoth order s.endian value v).length < 2 ^ 53) :
    ∃ s₁ s₂, s.writeStringF16 order value = .done () s₁ ∧ s₁.writeValue order v = .done () s₂ ∧
      Written s s₂ (encodeBoth order s.endian value v) ∧ s₂.endian = s.endian := by
  rw [encodeBoth, List.length_append] at h53
  obtain ⟨s₁, hfirst, hw₁⟩ : ∃ s₁, s.writeString order .F16 value = .done () s₁ ∧
      Written s s₁ (encodeString order s.endian .F16 value) :=
    writeString_written h .F16 value (by omega)
  have hend₁ : s₁.endian = s.endian := writeString_endian hfirst
  have hroom : s₁.position + (v.encode order s₁.endian).length < 2 ^ 53 := by
    rw [hw₁.position, hend₁]
    omega
  obtain ⟨s₂, hsecond, hw₂⟩ := writeValue_written hw₁.wf v hroom
  have hend₂ : s₂.endian = s₁.endian := writeValue_endian hsecond
  rw [hend₁] at hw₂
  exact ⟨s₁, s₂, hfirst, hsecond, hw₁.trans h hw₂, hend₂.trans hend₁⟩

/-- A string that fits its field is read, and then comes the value. -/
theorem readBoth_eq (h : Wf s) {value : List UInt8} (hshort : value.length < 2 ^ 16) {v : Value}
    (hdata : Holds s.bytes s.position (encodeBoth order s.endian value v))
    (hfit : s.position + (encodeBoth order s.endian value v).length ≤ s.size) :
    s.readBoth order v =
      ((s.seek (s.position + (encodeString order s.endian .F16 value).length)).readItem order
        v.item).map fun x => (value, x) := by
  have hpos := v.length_encode_pos order s.endian
  have hcap := h.size
  rw [encodeBoth, List.length_append] at hfit
  rw [encodeBoth, holds_append] at hdata
  have hread : s.readStringF16 order = _ := readString_eq h .F16 hshort hdata.1 (by omega)
  -- the value is behind the string, so that its block pointer is not null
  rw [if_neg (by omega)] at hread
  rw [readBoth, hread]
  rfl

/-- After both were written: the string comes back from where it was written, and the reader of
the value stands before the bytes of the value. -/
theorem readBoth_written {value : List UInt8} {v : Value}
    (hw : Written s s' (encodeBoth order s.endian value v)) (hend : s'.endian = s.endian)
    (hshort : value.length < 2 ^ 16) :
    ((s'.setPosition s.position).bind fun _ t => t.readBoth order v) =
      ((s'.seek (s.position + (encodeString order s.endian .F16 value).length)).readItem order
        v.item).map fun x => (value, x) := by
  have hpos := hw.position
  have hend' := hw.wf.position
  have hseek : Wf (s'.seek s.position) := hw.wf.seek (by omega)
  have horder : (s'.seek s.position).endian = s.endian := hend
  have hread := readBoth_eq (s := s'.seek s.position) hseek hshort
    (by rw [horder]; exact hw.holds) (by rw [horder, seek_position, seek_size]; omega)
  rw [setPosition_back hw.wf (by omega), Result.bind_done, hread, horder, seek_position, seek_seek]

theorem readBoth_back {value : List UInt8} {v : Value}
    (hw : Written s s' (encodeBoth order s.endian value v)) (hend : s'.endian = s.endian)
    (hshort : value.length < 2 ^ 16) (hfits : v.Fits) :
    ((s'.setPosition s.position).bind fun _ t => t.readBoth order v) =
      if v.isEmpty ∧ s.position + (encodeBoth order s.endian value v).length = s'.capacity then
        .crash
      else
        .done (value, v.result)
          (s'.seek (s.position + (encodeBoth order s.endian value v).length)) := by
  have hpos := hw.position
  have hsize := hw.wf.position
  have hlen : (encodeBoth order s.endian value v).length =
      (encodeString order s.endian .F16 value).length + (v.encode order s.endian).length :=
    List.length_append
  rw [readBoth_written hw hend hshort]
  generalize hq : s.position + (encodeString order s.endian .F16 value).length = q
  have horder : (s'.seek q).endian = s.endian := hend
  have hitem := readItem_eq (s := s'.seek q) (hw.wf.seek (by omega)) hfits
    (by
      rw [horder, seek_position, ← hq]
      exact (holds_append.mp hw.holds).2)
    (by
      rw [horder, seek_position, seek_size]
      omega)
  rw [horder, seek_position, seek_capacity, seek_seek] at hitem
  rw [hitem, hlen, ← Nat.add_assoc, hq]
  split
  · rfl
  · rfl

/-- No string is refused, and the reader cannot return one that is too long for its field. -/
theorem Synced.short {value : List UInt8} {v : Value} (h : Synced order s value v) (hwf : Wf s)
    (h53 : s.position + (encodeBoth order s.endian value v).length < 2 ^ 53) :
    value.length < 2 ^ 16 := by
  obtain ⟨s₁, s₂, hfirst, -, -, -⟩ := written_both hwf value v h53
  obtain ⟨t, s₃, -, hback⟩ := h.back s₁ hfirst
  obtain ⟨_, t', -, hboth⟩ := Result.of_bind_done hback
  obtain ⟨x, t'', hread, hitem⟩ := Result.of_bind_done hboth
  obtain ⟨y, -, hy⟩ := Result.of_map_done hitem
  cases hy
  exact readString_lt (show t'.readString order .F16 = .done value t'' from hread)

/-- From any position of any byte array reached, a string and the value written behind it come back
if and only if the string is shorter than `2 ^ 16`, and so is the value with its own length field,
and the value is not an empty string that ends with the chain. -/
theorem short_strings_synced (hb : 0 < b) (hb53 : b < 2 ^ 53)
    (h : (byteArraySys order b).Reaches Sized s) (value : List UInt8) (v : Value)
    (h53 : s.position + (encodeBoth order s.endian value v).length < 2 ^ 53) :
    Synced order s value v ↔
      value.length < 2 ^ 16 ∧ v.Fits ∧
      ¬(v.isEmpty ∧ s.capacity ≤ s.position + (encodeBoth order s.endian value v).length ∧
        s.baseSize ∣ s.position + (encodeBoth order s.endian value v).length) := by
  have hwf : Wf s := (wf_inductive hb hb53).invariant h
  obtain ⟨s₁, s₂, hfirst, hsecond, hw, hend⟩ := written_both hwf value v h53
  rw [← hw.full_iff hwf]
  constructor
  · intro hsync
    have hshort := hsync.short hwf h53
    obtain ⟨t, s₃, ht, hback⟩ := hsync.back s₁ hfirst
    rw [hsecond] at ht
    cases ht
    have hfits : v.Fits := by
      rw [readBoth_written hw hend hshort] at hback
      obtain ⟨x, hitem, hx⟩ := Result.of_map_done hback
      cases hx
      exact fits_of_readItem hitem
    refine ⟨hshort, hfits, ?_⟩
    intro hnull
    rw [readBoth_back hw hend hshort hfits, if_pos hnull] at hback
    cases hback
  · rintro ⟨hshort, hfits, hroom⟩
    refine ⟨?_, fun hlong => absurd hshort (by omega)⟩
    intro t ht
    rw [hfirst] at ht
    cases ht
    exact ⟨s₂, _, hsecond, by rw [readBoth_back hw hend hshort hfits, if_neg hroom]⟩

/-- Blocks of two bytes, the string "ab" and an empty one behind it that fills the chain up to a
byte. -/
theorem short_strings_synced_cut :
    Synced .little (new 2 fun _ _ => 0) [97, 98] (.str .Vint []) := by
  have hinit : (byteArraySys .little 2).Reaches Sized (new 2 fun _ _ => 0) := .init ⟨_, rfl⟩
  exact (short_strings_synced (by decide) (by decide) hinit _ _ (by decide)).mpr
    ⟨by decide, show 0 < StrKind.Vint.limit by decide, by decide⟩

/-- A string of 65536 bytes is written behind the length 0. -/
theorem long_string_not_synced :
    (byteArraySys .little 4096).Reaches Sized (new 4096 fun _ _ => 0) ∧
    ¬ Synced .little (new 4096 fun _ _ => 0) (List.replicate 65536 97) (.num (.fuint8 7)) := by
  refine ⟨.init ⟨_, rfl⟩, ?_⟩
  intro hsync
  have hlen : (List.replicate 65536 (97 : UInt8)).length = 65536 := List.length_replicate
  have hshort := hsync.short (wf_new (by decide) (by decide)) (by
    rw [encodeBoth, encodeString, List.length_append, List.length_append, hlen]
    decide)
  omega

end Gxh.ByteArray
