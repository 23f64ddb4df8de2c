import Gxh.Lib.Bytes
import Gxh.Lib.Double
import Gxh.Lib.Word

/-!
# The byte array

`ByteArray` (`bytearray.h`, `bytearray.cc`): a chain of blocks of `m_baseSize` bytes with a
position in it. A block is the list of its bytes and `m_root` the list of all blocks in
order; `m_cur` is the number of a block, and `none` the null pointer. `new char[]` leaves the
bytes of a block as the allocator hands them out: `heap k` is what the `k`-th block holds.

An operation ends with a result, by a thrown `std::out_of_range`, or not at all, when the code
reads through a null block pointer. Sizes are below `2^53` in all runs considered, so sums do
not wrap; differences may.
-/

namespace Gxh

/-- `GXH_LITTLE_ENDIAN` and `GXH_BIG_ENDIAN`. -/
inductive Endian
  | little
  | big
  deriving DecidableEq, Repr

/-- The exceptions of a byte array. -/
inductive OutOfRange
  | notEnoughLen
  | setPosition
  deriving DecidableEq, Repr

def OutOfRange.what : OutOfRange → String
  | .notEnoughLen => "not enough len"
  | .setPosition => "set_position out of range"

/-- `ByteArray`. -/
structure ByteArray where
  baseSize : Nat
  position : Nat
  capacity : Nat
  size : Nat
  endian : Endian
  nodes : List (List UInt8)
  cur : Option Nat
  heap : Nat → Nat → UInt8
  /-- number of blocks allocated so far -/
  allocs : Nat

/-- How an operation ends. -/
inductive Result (α : Type)
  | done (a : α) (s : ByteArray)
  | thrown (e : OutOfRange) (s : ByteArray)
  /-- an access through a null block pointer -/
  | crash

namespace Result

variable {α β : Type}

def bind (r : Result α) (f : α → ByteArray → Result β) : Result β :=
  match r with
  | .done a s => f a s
  | .thrown e s => .thrown e s
  | .crash => .crash

def map (f : α → β) (r : Result α) : Result β := r.bind fun a s => .done (f a) s

@[simp] theorem bind_done (a : α) (s : ByteArray) (f : α → ByteArray → Result β) :
    (Result.done a s).bind f = f a s := rfl

@[simp] theorem map_done (f : α → β) (a : α) (s : ByteArray) :
    (Result.done a s).map f = .done (f a) s := rfl

/-- The state an operation leaves, if it comes to an end. -/
def state : Result α → Option ByteArray
  | .done _ s => some s
  | .thrown _ s => some s
  | .crash => none

end Result

namespace ByteArray

/-- `new Node(m_baseSize)`, the `k`-th allocation. -/
def newNode (baseSize : Nat) (heap : Nat → Nat → UInt8) (k : Nat) : List UInt8 :=
  (List.range baseSize).map (heap k)

/-- `ByteArray::ByteArray`. -/
def new (baseSize : Nat) (heap : Nat → Nat → UInt8) : ByteArray where
  baseSize
  position := 0
  capacity := baseSize
  size := 0
  endian := .big
  nodes := [newNode baseSize heap 0]
  cur := some 0
  heap
  allocs := 1

/-- Block number `i` of the chain, or null behind its end. -/
def ptr (s : ByteArray) (i : Nat) : Option Nat := if i < s.nodes.length then some i else none

def getReadSize (s : ByteArray) : Nat := sub64 s.size s.position

def getCapacity (s : ByteArray) : Nat := sub64 s.capacity s.position

def isLittleEndian (s : ByteArray) : Bool := s.endian == .little

def setIsLittleEndian (s : ByteArray) (val : Bool) : ByteArray :=
  { s with endian := if val then .little else .big }

/-- `ByteArray::clear`. -/
def clear (s : ByteArray) : ByteArray :=
  { s with
    position := 0, size := 0, capacity := s.baseSize, nodes := s.nodes.take 1, cur := some 0 }

/-- `ByteArray::addCapacity`. -/
def addCapacity (s : ByteArray) (size : Nat) : ByteArray :=
  if size = 0 then s
  else
    let oldCap := s.getCapacity
    if oldCap ≥ size then s
    else
      let count := ceilQuot (size - oldCap) s.baseSize
      let first := if count = 0 then none else some s.nodes.length
      { s with
        nodes := s.nodes ++
          (List.range count).map fun i => newNode s.baseSize s.heap (s.allocs + i)
        allocs := s.allocs + count
        capacity := s.capacity + count * s.baseSize
        cur := if oldCap = 0 then first else s.cur }

/-- The loop of `write` from block `node` on: `npos` is the offset in it. Along with the blocks
it gives the number of steps `m_cur` makes. -/
def writeNodes : List (List UInt8) → Nat → List UInt8 → Option (List (List UInt8) × Nat)
  | [], _, _ => none
  | node :: rest, npos, buf =>
      let ncap := node.length - npos
      if ncap ≥ buf.length then
        some (splice node npos buf :: rest, if node.length = npos + buf.length then 1 else 0)
      else
        (writeNodes rest 0 (buf.drop ncap)).map fun r =>
          (splice node npos (buf.take ncap) :: r.1, r.2 + 1)

/-- The part of `write` after `addCapacity`. -/
def fill (s : ByteArray) (buf : List UInt8) : Result Unit :=
  match s.cur with
  | none => .crash
  | some i =>
      match writeNodes (s.nodes.drop i) (s.position % s.baseSize) buf with
      | none => .crash
      | some (nodes, steps) =>
          let position := s.position + buf.length
          .done () { s with
            nodes := s.nodes.take i ++ nodes
            cur := s.ptr (i + steps)
            position
            size := if position > s.size then position else s.size }

/-- `ByteArray::write`. -/
def write (s : ByteArray) (buf : List UInt8) : Result Unit :=
  if buf = [] then .done () s else (s.addCapacity buf.length).fill buf

/-- The loop of `read`. -/
def readNodes : List (List UInt8) → Nat → Nat → Option (List UInt8 × Nat)
  | [], _, _ => none
  | node :: rest, npos, size =>
      let ncap := node.length - npos
      if ncap ≥ size then
        some ((node.drop npos).take size, if node.length = npos + size then 1 else 0)
      else
        (readNodes rest 0 (size - ncap)).map fun r => (node.drop npos ++ r.1, r.2 + 1)

/-- `m_cur->size` is read first, and then comes the loop, which does nothing for no bytes. -/
def readFrom (s : ByteArray) (npos size : Nat) : Option (List UInt8 × Nat) :=
  match s.cur with
  | none => none
  | some i => if size = 0 then some ([], 0) else readNodes (s.nodes.drop i) npos size

/-- `ByteArray::read(buf, size)`. -/
def read (s : ByteArray) (size : Nat) : Result (List UInt8) :=
  if size > s.getReadSize then .thrown .notEnoughLen s
  else
    match s.readFrom (s.position % s.baseSize) size with
    | none => .crash
    | some (bytes, steps) =>
        .done bytes { s with
          cur := s.cur.bind fun i => s.ptr (i + steps)
          position := s.position + size }

/-- `ByteArray::read(buf, size, position)`, which starts at `m_cur` whatever the position. -/
def readAt (s : ByteArray) (size position : Nat) : Result (List UInt8) :=
  if size > sub64 s.size position then .thrown .notEnoughLen s
  else
    match s.readFrom (position % s.baseSize) size with
    | none => .crash
    | some (bytes, _) => .done bytes s

/-- The walk of `setPosition` from `m_root`: the blocks passed. -/
def seekNodes : List (List UInt8) → Nat → Option Nat
  | [], _ => none
  | node :: rest, v =>
      if v > node.length then (seekNodes rest (v - node.length)).map (· + 1)
      else some (if v = node.length then 1 else 0)

/-- `ByteArray::setPosition`. -/
def setPosition (s : ByteArray) (v : Nat) : Result Unit :=
  if v > s.capacity then .thrown .setPosition s
  else
    match seekNodes s.nodes v with
    | none => .crash
    | some i =>
        .done () { s with position := v, size := if v > s.size then v else s.size, cur := s.ptr i }

/-- An `iovec`: a block, an offset in it and a length. -/
structure Iovec where
  node : Nat
  base : Nat
  len : Nat
  deriving DecidableEq, Repr

/-- The loop of `getWriteBuffers` from block number `i` on. -/
def buffersFrom : List (List UInt8) → Nat → Nat → Nat → Option (List Iovec)
  | [], _, _, _ => none
  | node :: rest, i, npos, len =>
      let ncap := node.length - npos
      if ncap ≥ len then some [⟨i, npos, len⟩]
      else (buffersFrom rest (i + 1) 0 (len - ncap)).map fun l => ⟨i, npos, ncap⟩ :: l

/-- `ByteArray::getWriteBuffers`. -/
def getWriteBuffers (s : ByteArray) (len : Nat) : Result (List Iovec) :=
  if len = 0 then .done [] s
  else
    let s := s.addCapacity len
    match s.cur with
    | none => .crash
    | some i =>
        match buffersFrom (s.nodes.drop i) i (s.position % s.baseSize) len with
        | none => .crash
        | some buffers => .done buffers s

/-- The loop of `readFromFile` over what is left of the file, a block at a time. `eof` is set
by the first read that gets fewer bytes than it asked for, possibly none. -/
def readFileLoop : Nat → ByteArray → List UInt8 → Result Unit
  | 0, s, _ => .done () s
  | fuel + 1, s, content =>
      (s.write (content.take s.baseSize)).bind fun _ s' =>
        if content.length < s.baseSize then .done () s'
        else readFileLoop fuel s' (content.drop s.baseSize)

/-- `ByteArray::readFromFile`; `none` is a file that does not open. -/
def readFromFile (s : ByteArray) : Option (List UInt8) → Result Bool
  | none => .done false s
  | some content => (readFileLoop (content.length + 1) s content).map fun _ => true

/-- `ByteArray::toString`. -/
def toString (s : ByteArray) : Result (List UInt8) :=
  if s.getReadSize = 0 then .done [] s else s.readAt s.getReadSize s.position

end ByteArray

end Gxh
