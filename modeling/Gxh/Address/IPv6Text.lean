import Gxh.Address.IPv6
import Gxh.HttpParser.Basic
import Gxh.Lib.ColonHex
import Gxh.Lib.Decimal

/-!
# The text of an IPv6 address

`IPv6Address::insert` (`address.cc`), into a stream that writes decimal numbers. The groups are read
as the host reads a `uint16_t` and swapped to network order on a little-endian host (`order`).

* `inserted` — what a turn of the loop keeps: the text so far is that of the groups so far, with
  `used_zeros` set once a run of zeros is left out;
* `insert_faithful` — the text between the brackets denotes the address, and no other.
-/

namespace Gxh.Address

open HttpParser (bytes)
open ColonHex

/-- `bswap_16`. -/
def byteswap16 (x : BitVec 16) : BitVec 16 := x.extractLsb' 0 8 ++ x.extractLsb' 8 8

/-- `byteswapOnLittleEndian`, for a `uint16_t`. -/
def byteswapOnLittleEndian16 (order : Endian) (x : BitVec 16) : BitVec 16 :=
  match order with
  | .little => byteswap16 x
  | .big => x

/-- The two bytes of a group. -/
def groupBytes (v : Bytes16) (i : Nat) : BitVec 8 × BitVec 8 :=
  (v[2 * i]?.getD 0, v[2 * i + 1]?.getD 0)

/-- `addr[i]`, as the host reads it. -/
def hostGroup (order : Endian) (v : Bytes16) (i : Nat) : BitVec 16 :=
  match order with
  | .little => (groupBytes v i).2 ++ (groupBytes v i).1
  | .big => (groupBytes v i).1 ++ (groupBytes v i).2

/-- Group `i` of the address. -/
def group (v : Bytes16) (i : Nat) : Nat := ((groupBytes v i).1 ++ (groupBytes v i).2).toNat

/-- The address as eight numbers. -/
def groups (v : Bytes16) : List Nat := (List.range 8).map (group v)

namespace IPv6Address

variable (order : Endian)

/-- `IPv6Address(address, port)`. -/
def new (address : Bytes16) (port : BitVec 16) : SockaddrIn6 where
  sin6_family := AF_INET6
  sin6_port := byteswapOnLittleEndian16 order port
  s6_addr := address

/-- A turn of the loop of `insert`, on what has been written and `used_zeros`. -/
def insertGroup (addr : Nat → BitVec 16) (s : List UInt8 × Bool) (i : Nat) : List UInt8 × Bool :=
  if addr i = 0 ∧ s.2 = false then s
  else
    let s := if i ≠ 0 ∧ addr (i - 1) = 0 ∧ s.2 = false then (s.1 ++ bytes ":", true) else s
    let os := if i ≠ 0 then s.1 ++ bytes ":" else s.1
    (os ++ hexadecimal (byteswapOnLittleEndian16 order (addr i)).toNat, s.2)

/-- `insert`. -/
def insert (m_addr : SockaddrIn6) : List UInt8 :=
  let addr := hostGroup order m_addr.s6_addr
  let s := (List.range 8).foldl (insertGroup order addr) (bytes "[", false)
  let os := if s.2 = false ∧ addr 7 = 0 then s.1 ++ bytes "::" else s.1
  os ++ bytes "]:" ++ decimal (byteswapOnLittleEndian16 order m_addr.sin6_port).toNat

end IPv6Address

open IPv6Address

/-! ## Byte order -/

theorem getLsbD_byteswap16 (x : BitVec 16) {i : Nat} (hi : i < 16) :
    (byteswap16 x).getLsbD i = x.getLsbD (if i < 8 then 8 + i else i - 8) := by
  unfold byteswap16
  rw [BitVec.getLsbD_append, BitVec.getLsbD_extractLsb', BitVec.getLsbD_extractLsb']
  by_cases h : i < 8
  · rw [if_pos h, if_pos h, decide_eq_true h, Bool.true_and]
  · rw [if_neg h, if_neg h, decide_eq_true (show i - 8 < 8 by omega), Bool.true_and, Nat.zero_add]

theorem byteswap16_append (x y : BitVec 8) : byteswap16 (x ++ y) = y ++ x := by
  apply BitVec.eq_of_getLsbD_eq
  intro i hi
  rw [getLsbD_byteswap16 _ hi, BitVec.getLsbD_append, BitVec.getLsbD_append]
  by_cases h : i < 8
  · rw [if_pos h, if_neg (by omega), if_pos h, Nat.add_sub_cancel_left]
  · rw [if_neg h, if_pos (by omega), if_neg h]

theorem byteswap16_byteswap16 (x : BitVec 16) : byteswap16 (byteswap16 x) = x := by
  apply BitVec.eq_of_getLsbD_eq
  intro i hi
  rw [getLsbD_byteswap16 _ hi, getLsbD_byteswap16 _ (by split <;> omega)]
  congr 1
  split <;> split <;> omega

@[simp] theorem byteswapOnLittleEndian16_twice (order : Endian) (x : BitVec 16) :
    byteswapOnLittleEndian16 order (byteswapOnLittleEndian16 order x) = x := by
  cases order with
  | little => exact byteswap16_byteswap16 x
  | big => rfl

theorem hostGroup_toNat (order : Endian) (v : Bytes16) (i : Nat) :
    (byteswapOnLittleEndian16 order (hostGroup order v i)).toNat = group v i := by
  cases order with
  | little =>
      show (byteswap16 _).toNat = _
      rw [hostGroup, byteswap16_append]
      rfl
  | big => rfl

theorem group_lt (v : Bytes16) (i : Nat) : group v i < 16 ^ 4 := BitVec.isLt _

theorem hostGroup_eq_zero (order : Endian) (v : Bytes16) (i : Nat) :
    hostGroup order v i = 0 ↔ group v i = 0 := by
  rw [← hostGroup_toNat order v i]
  constructor
  · intro h
    rw [h]
    cases order <;> decide
  · intro h
    have hswap : byteswapOnLittleEndian16 order (hostGroup order v i) = 0 :=
      BitVec.eq_of_toNat_eq h
    rw [← byteswapOnLittleEndian16_twice order (hostGroup order v i), hswap]
    cases order <;> decide

/-! ## The loop -/

theorem range_map_ne_nil {f : Nat → Nat} {i : Nat} (h : i ≠ 0) : (List.range i).map f ≠ [] := by
  rw [ne_eq, List.map_eq_nil_iff, List.range_eq_nil]
  exact h

theorem getLast?_range_map (f : Nat → Nat) {i : Nat} (h : i ≠ 0) :
    ((List.range i).map f).getLast? = some (f (i - 1)) := by
  obtain ⟨k, rfl⟩ := Nat.exists_eq_succ_of_ne_zero h
  rw [List.range_succ, List.map_append, List.map_singleton, List.getLast?_concat]
  rfl

/-- A turn writes the next group, leaves it out or closes a run of zeros before it. -/
theorem insertGroup_written (order : Endian) (v : Bytes16) {t : List UInt8} {used : Bool} {i : Nat}
    (h : Written used t ((List.range i).map (group v))) :
    ∃ t' used', insertGroup order (hostGroup order v) (bytes "[" ++ t, used) i =
      (bytes "[" ++ t', used') ∧ Written used' t' ((List.range (i + 1)).map (group v)) := by
  have hsucc : (List.range (i + 1)).map (group v) = (List.range i).map (group v) ++ [group v i] := by
    rw [List.range_succ, List.map_append, List.map_singleton]
  have hx := groupValue_hexadecimal (group_lt v i)
  rw [hsucc]
  unfold insertGroup
  simp only [hostGroup_eq_zero, hostGroup_toNat]
  by_cases hskip : group v i = 0 ∧ used = false
  · obtain ⟨hzero, rfl⟩ := hskip
    rw [if_pos ⟨hzero, rfl⟩, hzero]
    exact ⟨t, false, rfl, h.skip⟩
  · rw [if_neg hskip]
    have hcolon : bytes ":" = [colon] := by decide
    cases used with
    -- behind the double colon every group is written after a single one
    | true =>
        have hi : i ≠ 0 := fun hi => h.ne_nil (by rw [hi]; rfl)
        refine ⟨t ++ colon :: hexadecimal (group v i), true, ?_, h.append hx⟩
        simp [hi, hcolon]
    | false =>
        have hv : group v i ≠ 0 := fun hzero => hskip ⟨hzero, rfl⟩
        by_cases hi : i = 0
        · subst hi
          obtain rfl := h.text_nil
          exact ⟨hexadecimal (group v 0), false, by simp, .one hx hv⟩
        · have hlast := getLast?_range_map (group v) hi
          -- zeros that were left out before this group become the double colon
          by_cases hprev : group v (i - 1) = 0
          · rw [hprev] at hlast
            refine ⟨t ++ colon :: colon :: hexadecimal (group v i), true, ?_, h.close hlast hx⟩
            simp [hi, hcolon, hprev]
          · refine ⟨t ++ colon :: hexadecimal (group v i), false, ?_,
              h.next (range_map_ne_nil hi) ?_ hx hv⟩
            · simp [hi, hcolon, hprev]
            · rw [hlast]
              exact fun heq => hprev (Option.some.inj heq)

theorem inserted (order : Endian) (v : Bytes16) (i : Nat) :
    ∃ t used, (List.range i).foldl (insertGroup order (hostGroup order v)) (bytes "[", false) =
      (bytes "[" ++ t, used) ∧ Written used t ((List.range i).map (group v)) := by
  induction i with
  | zero => exact ⟨[], false, rfl, .start⟩
  | succ i ih =>
      obtain ⟨t, used, hfold, hwritten⟩ := ih
      rw [List.range_succ, List.foldl_append, hfold, ← List.range_succ]
      exact insertGroup_written order v hwritten

/-! ## The text -/

theorem append_inj {x x' y y' : BitVec 8} (h : x ++ y = x' ++ y') : x = x' ∧ y = y' := by
  have hbit : ∀ i, (x ++ y).getLsbD i = (x' ++ y').getLsbD i := fun i => by rw [h]
  refine ⟨BitVec.eq_of_getLsbD_eq fun i hi => ?_, BitVec.eq_of_getLsbD_eq fun i hi => ?_⟩
  · have hhigh := hbit (i + 8)
    rw [BitVec.getLsbD_append, BitVec.getLsbD_append, if_neg (by omega), if_neg (by omega),
      Nat.add_sub_cancel] at hhigh
    exact hhigh
  · have hlow := hbit i
    rw [BitVec.getLsbD_append, BitVec.getLsbD_append, if_pos hi, if_pos hi] at hlow
    exact hlow

/-- The eight numbers are the address. -/
theorem groups_injective {v v' : Bytes16} (h : groups v = groups v') : v = v' := by
  have hgroup : ∀ i < 8, groupBytes v i = groupBytes v' i := by
    intro i hi
    have hnumber : group v i = group v' i := List.map_inj_left.mp h i (List.mem_range.mpr hi)
    obtain ⟨hfirst, hsecond⟩ := append_inj (BitVec.eq_of_toNat_eq hnumber)
    exact Prod.ext hfirst hsecond
  have hbyte : ∀ k < 16, v[k]?.getD 0 = v'[k]?.getD 0 := by
    intro k hk
    have hpair := hgroup (k / 2) (by omega)
    rcases Nat.mod_two_eq_zero_or_one k with heven | hodd
    · have hfirst := congrArg Prod.fst hpair
      rwa [groupBytes, groupBytes, show 2 * (k / 2) = k by omega] at hfirst
    · have hsecond := congrArg Prod.snd hpair
      rwa [groupBytes, groupBytes, show 2 * (k / 2) + 1 = k by omega] at hsecond
  apply Vector.ext
  intro k hk
  have heq := hbyte k hk
  rwa [Vector.getElem?_eq_getElem hk, Vector.getElem?_eq_getElem hk] at heq

/-- For every address and port the text is the address in brackets, a colon and the port. -/
theorem insert_faithful (order : Endian) (address : Bytes16) (port : BitVec 16) :
    ∃ t, IPv6Address.insert order (new order address port) =
      bytes "[" ++ t ++ bytes "]:" ++ decimal port.toNat ∧
      ∀ other, Denotes t (groups other) ↔ other = address := by
  obtain ⟨t, used, hfold, hwritten⟩ := inserted order address 8
  change Written used t (groups address) at hwritten
  have hlen : (groups address).length = 8 := by
    rw [groups, List.length_map, List.length_range]
  have hlast : (groups address).getLast? = some (group address 7) :=
    getLast?_range_map (group address) (by decide)
  have hdouble : bytes "::" = [colon, colon] := by decide
  have htext : ∃ t', (if used = false ∧ hostGroup order address 7 = 0 then
      bytes "[" ++ t ++ bytes "::" else bytes "[" ++ t) = bytes "[" ++ t' ∧
      Denotes t' (groups address) := by
    simp only [hostGroup_eq_zero]
    cases used with
    | true => exact ⟨t, if_neg (by simp), hwritten.denotes hlen⟩
    | false =>
        by_cases hzero : group address 7 = 0
        · refine ⟨t ++ [colon, colon], ?_, hwritten.denotes_close hlen (by rw [hlast, hzero])⟩
          rw [if_pos ⟨rfl, hzero⟩, hdouble, List.append_assoc]
        · refine ⟨t, if_neg fun h => hzero h.2, hwritten.denotes_full hlen ?_⟩
          rw [hlast]
          exact fun heq => hzero (Option.some.inj heq)
  obtain ⟨t', htext, hdenotes⟩ := htext
  refine ⟨t', ?_, fun other => ⟨fun h => ?_, fun h => h ▸ hdenotes⟩⟩
  · unfold IPv6Address.insert
    simp only [new, byteswapOnLittleEndian16_twice, hfold, htext]
  · exact groups_injective (h.unique hdenotes)

end Gxh.Address
