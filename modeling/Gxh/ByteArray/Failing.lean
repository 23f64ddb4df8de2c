import Gxh.ByteArray.Strings
import Gxh.ByteArray.Views

/-!
# Reads of items that are not there yet

An item begins with a fixed-width field or a varint. A fixed-width field is read at once and
fails at once; a varint is read byte by byte, and the bytes read before one is missing stay read
(`readVarint_short`). A string has read its length field when its own bytes turn out to be
missing. `failing_read_clean` says which failing reads leave the array as it was.
-/

namespace Gxh.ByteArray

variable {s t : ByteArray} {b : Nat} {order : Endian}

/-! ## Items -/

/-- What a `read*` function reads. -/
inductive Item
  | num (kind : NumKind)
  | str (kind : StrKind)
  deriving DecidableEq, Repr

/-- Call the reader of the item. -/
def readItem (order : Endian) (s : ByteArray) : Item → Result (Num ⊕ List UInt8)
  | .num kind => (s.readNum order kind).map .inl
  | .str kind => (s.readString order kind).map .inr

/-- How a field is stored: in `k` bytes, or in a varint of at most `room` bytes. -/
inductive Coding
  | fixed (k : Nat)
  | varint (room : Nat)
  deriving DecidableEq, Repr

def NumKind.coding : NumKind → Coding
  | .fint8 | .fuint8 => .fixed 1
  | .fint16 | .fuint16 => .fixed 2
  | .fint32 | .fuint32 | .float => .fixed 4
  | .fint64 | .fuint64 | .double => .fixed 8
  | .int32 | .uint32 => .varint 5
  | .int64 | .uint64 => .varint 10

def StrKind.coding : StrKind → Coding
  | .F16 => .fixed 2
  | .F32 => .fixed 4
  | .F64 => .fixed 8
  | .Vint => .varint 10

/-- The first field of an item: the number itself, or the length of the string. -/
def Item.coding : Item → Coding
  | .num kind => kind.coding
  | .str kind => kind.coding

/-- The length a string announces, read from its length field. -/
def announced (order : Endian) (s : ByteArray) : StrKind → Result Nat
  | .F16 => (readFuint16 order s).map UInt16.toNat
  | .F32 => (readFuint32 order s).map UInt32.toNat
  | .F64 => (readFuint64 order s).map UInt64.toNat
  | .Vint => s.readUint64.map UInt64.toNat

/-- The field is not there in full: too few bytes, or only bytes that announce another one. -/
def Coding.Missing (s : ByteArray) : Coding → Prop
  | .fixed k => s.size - s.position < k
  | .varint room => s.size - s.position < room ∧ ∀ x ∈ s.content.drop s.position, 0x80 ≤ x

/-- The bytes behind the position are too few for the item. -/
def TooShort (order : Endian) (s : ByteArray) (item : Item) : Prop :=
  item.coding.Missing s ∨
    ∃ kind n t, item = .str kind ∧ announced order s kind = .done n t ∧ t.size - t.position < n

/-- `std::out_of_range`, and the array as before. -/
def Clean (s : ByteArray) (r : Result (Num ⊕ List UInt8)) : Prop :=
  ∃ t, r = .thrown .notEnoughLen t ∧ t.position = s.position ∧ t.size = s.size ∧
    t.capacity = s.capacity ∧ t.content = s.content

/-- A fixed-width first field that is too short itself, or no byte at all for a varint. -/
def FailsAtOnce (s : ByteArray) (item : Item) : Prop :=
  match item.coding with
  | .fixed k => s.size - s.position < k
  | .varint _ => s.size = s.position

/-! ## Results in sequence -/

section Via

variable {α β γ : Type}

/-- The operation `r` begins with `first`. -/
def Via (r : Result α) (first : Result β) : Prop :=
  ∃ f : β → ByteArray → Result α, r = first.bind f

theorem Via.refl (r : Result α) : Via r r := by
  refine ⟨fun a s => .done a s, ?_⟩
  cases r with
  | done a s => rfl
  | thrown e s => rfl
  | crash => rfl

theorem Via.bind {r : Result α} {first : Result β} (h : Via r first)
    (f : α → ByteArray → Result γ) : Via (r.bind f) first := by
  obtain ⟨g, rfl⟩ := h
  refine ⟨fun a s => (g a s).bind f, ?_⟩
  cases first with
  | done a s => rfl
  | thrown e s => rfl
  | crash => rfl

theorem Via.map {r : Result α} {first : Result β} (h : Via r first) (f : α → γ) :
    Via (r.map f) first := h.bind _

/-- An exception of the first part is one of the whole. -/
theorem Via.thrown {r : Result α} {first : Result β} (h : Via r first) {e : OutOfRange}
    (ht : first = .thrown e t) : r = .thrown e t := by
  obtain ⟨f, rfl⟩ := h
  rw [ht]
  rfl

/-- A result of the whole comes from one of the first part. -/
theorem Via.done {r : Result α} {first : Result β} (h : Via r first) {a : α}
    (ha : r = .done a t) : ∃ c u, first = .done c u := by
  obtain ⟨f, rfl⟩ := h
  cases first with
  | done c u => exact ⟨c, u, rfl⟩
  | thrown e u => cases ha
  | crash => cases ha

end Via

/-- The code of the item is read first. -/
theorem num_via_fixed {kind : NumKind} {k : Nat} (hk : kind.coding = .fixed k) :
    Via (s.readNum order kind) (s.read k) := by
  cases kind with
  | fint8 | fuint8 =>
      cases hk
      exact ((Via.refl _).map _).map _
  | int32 | uint32 | int64 | uint64 => cases hk
  | _ =>
      cases hk
      exact (((Via.refl _).map _).map _).map _

theorem num_via_varint {kind : NumKind} {room : Nat} (hk : kind.coding = .varint room) :
    ∃ bits, Via (s.readNum order kind) (readVarint bits room 0 0 s) := by
  cases kind with
  | int32 | int64 =>
      cases hk
      exact ⟨_, (((Via.refl _).map _).map _).map _⟩
  | uint32 | uint64 =>
      cases hk
      exact ⟨_, ((Via.refl _).map _).map _⟩
  | _ => cases hk

theorem announced_via_fixed {kind : StrKind} {k : Nat} (hk : kind.coding = .fixed k) :
    Via (announced order s kind) (s.read k) := by
  cases kind with
  | Vint => cases hk
  | _ =>
      cases hk
      exact (((Via.refl _).map _).map _).map _

theorem announced_via_varint {kind : StrKind} {room : Nat} (hk : kind.coding = .varint room) :
    ∃ bits, Via (announced order s kind) (readVarint bits room 0 0 s) := by
  cases kind with
  | Vint =>
      cases hk
      exact ⟨64, ((Via.refl _).map _).map _⟩
  | _ => cases hk

/-- A string is the length it announces and as many bytes. -/
theorem readString_announced (s : ByteArray) (kind : StrKind) :
    s.readString order kind = (announced order s kind).bind fun n t => t.read n := by
  cases kind with
  | F16 =>
      show (readFuint16 order s).bind _ = ((readFuint16 order s).map _).bind _
      cases readFuint16 order s <;> rfl
  | F32 =>
      show (readFuint32 order s).bind _ = ((readFuint32 order s).map _).bind _
      cases readFuint32 order s <;> rfl
  | F64 =>
      show (readFuint64 order s).bind _ = ((readFuint64 order s).map _).bind _
      cases readFuint64 order s <;> rfl
  | Vint =>
      show s.readUint64.bind _ = (s.readUint64.map _).bind _
      cases s.readUint64 <;> rfl

theorem item_via_fixed {item : Item} {k : Nat} (hk : item.coding = .fixed k) :
    Via (s.readItem order item) (s.read k) := by
  cases item with
  | num kind => exact (num_via_fixed hk).map _
  | str kind =>
      show Via ((s.readString order kind).map Sum.inr) _
      rw [readString_announced]
      exact ((announced_via_fixed hk).bind _).map _

theorem item_via_varint {item : Item} {room : Nat} (hk : item.coding = .varint room) :
    ∃ bits, Via (s.readItem order item) (readVarint bits room 0 0 s) := by
  cases item with
  | num kind =>
      obtain ⟨bits, hvia⟩ := num_via_varint (s := s) hk
      exact ⟨bits, hvia.map _⟩
  | str kind =>
      obtain ⟨bits, hvia⟩ := announced_via_varint (s := s) hk
      refine ⟨bits, ?_⟩
      show Via ((s.readString order kind).map Sum.inr) _
      rw [readString_announced]
      exact (hvia.bind _).map _

/-! ## Varints byte by byte -/

/-- While there is a byte, `readFuint8` takes it. -/
theorem readFuint8_next (h : Wf s) (hlt : s.position < s.size) :
    ∃ x, s.readFuint8 = .done x (s.seek (s.position + 1)) ∧
      s.content.drop s.position = x :: s.content.drop (s.position + 1) := by
  have hlen : s.position < s.content.length := by
    rw [h.length_content]
    exact hlt
  have hdrop := List.drop_eq_getElem_cons hlen
  refine ⟨s.content[s.position], ?_, hdrop⟩
  unfold readFuint8
  rw [read_eq h (by omega) (by omega), ← slice_content (by omega), hdrop]
  rfl

theorem readFuint8_thrown (h : Wf s) (hend : s.position = s.size) :
    s.readFuint8 = .thrown .notEnoughLen s := by
  unfold readFuint8
  rw [read_thrown h (by omega)]
  rfl

/-- A varint that is not there in full is read to the end of the content. -/
theorem readVarint_short (h : Wf s) {bits room i result : Nat}
    (hroom : s.size - s.position < room) (hhigh : ∀ x ∈ s.content.drop s.position, 0x80 ≤ x) :
    readVarint bits room i result s = .thrown .notEnoughLen (s.seek s.size) := by
  induction room generalizing s i result with
  | zero => omega
  | succ room ih =>
      have hpos := h.position
      unfold readVarint
      by_cases hend : s.position = s.size
      · rw [readFuint8_thrown h hend, ← hend, h.seek_position]
        rfl
      · obtain ⟨x, hread, hdrop⟩ := readFuint8_next h (by omega)
        rw [hdrop] at hhigh
        have hx : ¬ x < 0x80 := UInt8.not_lt.mpr (hhigh x (List.mem_cons_self ..))
        have hleft :
            (s.seek (s.position + 1)).size - (s.seek (s.position + 1)).position < room := by
          rw [seek_size, seek_position]
          omega
        rw [hread, Result.bind_done, if_neg hx, ih (h.seek (by omega)) hleft, seek_seek, seek_size]
        intro y hy
        exact hhigh y (List.mem_cons_of_mem _ hy)

/-! ## What a length field leaves behind -/

/-- A field was read: its bytes were there, and the position is behind them. -/
structure Consumed (s t : ByteArray) : Prop where
  wf : Wf t
  moved : s.position < t.position
  some : s.position < s.size

theorem consumed_varint (h : Wf s) {bits room i result v : Nat} (hroom : 0 < room)
    (hdone : readVarint bits room i result s = .done v t) : Consumed s t := by
  induction room generalizing s i result with
  | zero => omega
  | succ room ih =>
      unfold readVarint at hdone
      by_cases hend : s.position = s.size
      · rw [readFuint8_thrown h hend] at hdone
        cases hdone
      · have hpos := h.position
        obtain ⟨x, hread, -⟩ := readFuint8_next h (by omega)
        have hnext : Wf (s.seek (s.position + 1)) := h.seek (by omega)
        rw [hread, Result.bind_done] at hdone
        split at hdone
        · injection hdone with _ ht
          rw [← ht]
          exact ⟨hnext, Nat.lt_succ_self _, by omega⟩
        · cases room with
          | zero =>
              injection hdone with _ ht
              rw [← ht]
              exact ⟨hnext, Nat.lt_succ_self _, by omega⟩
          | succ room =>
              obtain ⟨hwf, hmoved, -⟩ := ih hnext (Nat.succ_pos _) hdone
              rw [seek_position] at hmoved
              exact ⟨hwf, by omega, by omega⟩

theorem map_eq_done {α β : Type} {r : Result α} {f : α → β} {c : β}
    (h : r.map f = .done c t) : ∃ a, r = .done a t ∧ f a = c := by
  cases r with
  | done a u =>
      injection h with hc ht
      exact ⟨a, by rw [ht], hc⟩
  | thrown e u => cases h
  | crash => cases h

theorem consumed_fixed (h : Wf s) {k n : Nat} (hk : 0 < k)
    (hdone : readFixed order k s = .done n t) : Consumed s t ∧ k ≤ s.size - s.position := by
  obtain ⟨bytes, hread, -⟩ := map_eq_done hdone
  by_cases hfit : s.size < s.position + k
  · rw [read_thrown h hfit] at hread
    cases hread
  · rw [read_eq h hk (by omega)] at hread
    injection hread with _ ht
    rw [← ht]
    refine ⟨⟨h.seek (by omega), ?_, by omega⟩, by omega⟩
    rw [seek_position]
    omega

/-- A string whose length was read did not fail at once. -/
theorem announced_consumed (h : Wf s) {kind : StrKind} {n : Nat}
    (hdone : announced order s kind = .done n t) :
    Consumed s t ∧ ¬ FailsAtOnce s (.str kind) := by
  have hfixed : ∀ k, 0 < k → ∀ m, readFixed order k s = .done m t →
      Consumed s t ∧ ¬ s.size - s.position < k := by
    intro k hk m hread
    obtain ⟨hcons, hle⟩ := consumed_fixed h hk hread
    exact ⟨hcons, by omega⟩
  cases kind with
  | Vint =>
      obtain ⟨v, hfield, -⟩ := map_eq_done hdone
      obtain ⟨m, hread, -⟩ := map_eq_done hfield
      have hcons := consumed_varint h (by decide) hread
      refine ⟨hcons, ?_⟩
      intro hnone
      have hend : s.size = s.position := hnone
      have := hcons.some
      omega
  | _ =>
      obtain ⟨v, hfield, -⟩ := map_eq_done hdone
      obtain ⟨m, hread, -⟩ := map_eq_done hfield
      exact hfixed _ (by decide) m hread

/-! ## Failing reads -/

/-- The array an exception leaves is as before only if the position is. -/
theorem clean_thrown {r : Result (Num ⊕ List UInt8)} (hr : r = .thrown .notEnoughLen t)
    (hclean : Clean s r) : t.position = s.position := by
  obtain ⟨u, heq, hpos, -⟩ := hclean
  rw [hr] at heq
  injection heq with _ htu
  rw [htu]
  exact hpos

theorem clean_self {r : Result (Num ⊕ List UInt8)} (hr : r = .thrown .notEnoughLen s) :
    Clean s r := ⟨s, hr, rfl, rfl, rfl, rfl⟩

/-- The bytes of a string are missing behind a length field that was read. -/
theorem string_unclean (h : Wf s) {kind : StrKind} {n : Nat}
    (hdone : announced order s kind = .done n t) (hshort : t.size - t.position < n) :
    ¬ Clean s (s.readItem order (.str kind)) ∧ ¬ FailsAtOnce s (.str kind) := by
  obtain ⟨hcons, hnot⟩ := announced_consumed h hdone
  have hwf := hcons.wf
  have hmoved := hcons.moved
  have hpos := hwf.position
  have hread : s.readItem order (.str kind) = .thrown .notEnoughLen t := by
    show (s.readString order kind).map Sum.inr = _
    rw [readString_announced, hdone, Result.bind_done, read_thrown hwf (by omega)]
    rfl
  refine ⟨?_, hnot⟩
  intro hclean
  have hsame := clean_thrown hread hclean
  omega

/-- Of the reads that fail because the data are too short, those leave the array as it was whose
first field is a fixed-width one and too short itself, or a varint without a byte. -/
theorem failing_read_clean (hb : 0 < b) (h53 : b < 2 ^ 53)
    (h : (byteArraySys order b).Reaches Sized s) {item : Item} (hshort : TooShort order s item) :
    Clean s (s.readItem order item) ↔ FailsAtOnce s item := by
  have hwf : Wf s := (wf_inductive hb h53).invariant h
  have hpos := hwf.position
  rcases hshort with hmissing | ⟨kind, n, t, rfl, hdone, hrest⟩
  · cases hcode : item.coding with
    | fixed k =>
        rw [hcode] at hmissing
        have hlt : s.size - s.position < k := hmissing
        have hvia : Via (s.readItem order item) (s.read k) := item_via_fixed hcode
        have hread := hvia.thrown (read_thrown hwf (by omega))
        unfold FailsAtOnce
        rw [hcode]
        exact ⟨fun _ => hlt, fun _ => clean_self hread⟩
    | varint room =>
        rw [hcode] at hmissing
        obtain ⟨hroom, hhigh⟩ := hmissing
        obtain ⟨bits, hvia⟩ : ∃ bits, Via (s.readItem order item) (readVarint bits room 0 0 s) :=
          item_via_varint hcode
        have hread := hvia.thrown (readVarint_short hwf hroom hhigh)
        unfold FailsAtOnce
        rw [hcode]
        constructor
        · intro hclean
          exact clean_thrown hread hclean
        · intro hend
          have hsame : s.seek s.size = s := by
            have hend : s.size = s.position := hend
            rw [hend, hwf.seek_position]
          rw [hsame] at hread
          exact clean_self hread
  · obtain ⟨hunclean, hnot⟩ := string_unclean hwf hdone hrest
    exact ⟨fun hclean => absurd hclean hunclean, fun honce => absurd honce hnot⟩

/-- Four bytes are asked for and three are there. -/
theorem failing_read_clean_fixed : ∃ s, (byteArraySys .little 2).Reaches Sized s ∧
    TooShort .little s (.num .fuint32) ∧
    (Clean s (s.readItem .little (.num .fuint32)) ↔ FailsAtOnce s (.num .fuint32)) := by
  obtain ⟨s, hs, hsize⟩ := exists_reached (b := 2) [.write [1, 2, 3], .setPosition 0]
    (p := fun s => s.size - s.position < 4) (by decide +kernel)
  have hshort : TooShort .little s (.num .fuint32) := .inl hsize
  exact ⟨s, hs, hshort, failing_read_clean (by decide) (by decide) hs hshort⟩

/-- The first byte of a two-byte varint: the read fails, and the byte is gone. -/
theorem split_varint_lost : ∃ s, (byteArraySys .little 4).Reaches Sized s ∧
    TooShort .little s (.num .uint32) ∧ ¬ Clean s (s.readItem .little (.num .uint32)) := by
  obtain ⟨s, hs, hbyte, hsize, hposition⟩ := exists_reached (b := 4) [.write [0x80], .setPosition 0]
    (p := fun s => s.content.drop s.position = [0x80] ∧ s.size = 1 ∧ s.position = 0)
    (by decide +kernel)
  have hwf : Wf s := (wf_inductive (by decide) (by decide)).invariant hs
  have hroom : s.size - s.position < 5 := by omega
  have hhigh : ∀ x ∈ s.content.drop s.position, 0x80 ≤ x := by
    rw [hbyte]
    exact List.forall_mem_singleton.mpr (by decide)
  refine ⟨s, hs, .inl ⟨hroom, hhigh⟩, ?_⟩
  intro hclean
  have hvia : Via (s.readItem .little (.num .uint32)) (readVarint 32 5 0 0 s) :=
    ((Via.refl _).map _).map _ |>.map _
  have hsame := clean_thrown (hvia.thrown (readVarint_short hwf hroom hhigh)) hclean
  rw [seek_position] at hsame
  omega

end Gxh.ByteArray
