import Gxh.ByteArray.File
import Gxh.ByteArray.LengthField
import Gxh.Lib.Program
import Gxh.Streams.SocketStream

/-!
# A byte array is a flat buffer

`Flat` is what a byte array is for: a text, a position in it, and a byte order for the numbers.
The operations, and the transfers through a socket and a file, are programs over a few commands
(`Call.prog`), which the chain of blocks runs as the code does (`run_call`). Command by command the
chain does what the flat buffer does (`chain_refines`), so that whole sessions do (`flat_refines`):
no result depends on the size of the blocks or on what the allocator left in them.

The flat buffer leaves undefined what does depend on them: a read of no byte at the end of the
data, a read away from the position, a position behind the end of the data, a transfer of nothing
through a socket, and a file written from the middle of the data.
-/

namespace Gxh

namespace Result

/-- A read through a null block pointer is undefined. -/
def toEnding {α : Type} : Result α → Ending OutOfRange ByteArray α
  | .done a s => .done a s
  | .thrown e s => .thrown e s
  | .crash => .undefined

theorem toEnding_bind {α β : Type} (r : Result α) (f : α → ByteArray → Result β) :
    (r.bind f).toEnding = r.toEnding.bind fun a s => (f a s).toEnding := by
  cases r <;> rfl

theorem toEnding_map {α β : Type} (r : Result α) (f : α → β) :
    (r.map f).toEnding = r.toEnding.bind fun a s => .done (f a) s :=
  r.toEnding_bind _

theorem forget_map {α β : Type} (r : Result α) (f : α → β) :
    (r.map f).map (fun _ => ()) = r.map fun _ => () := by
  cases r <;> rfl

theorem forget_unit {β : Type} (r : Result Unit) (f : Unit → β) :
    (r.map f).map (fun _ => ()) = r := by
  cases r <;> rfl

end Result

namespace ByteArray

variable {s s' : ByteArray}

/-! ## The operations as programs -/

/-- What the operations are made of. -/
inductive Cmd
  | write (buf : List UInt8)
  | read (size : Nat)
  | readAt (size position : Nat)
  | readFromFile (file : Option (List UInt8))
  | setPosition (v : Nat)
  | clear
  | getWriteBuffers (len : Nat)
  | recv (length : Nat) (answer : SocketStream.Recvmsg)
  | send (length : Nat) (rt : Int)
  | writeToFile (opened : Bool)
  | setIsLittleEndian (val : Bool)
  | getReadSize
  | getPosition
  | getEndian
  deriving DecidableEq, Repr

def Cmd.Reply : Cmd → Type
  | .write _ | .setPosition _ | .clear | .getWriteBuffers _ | .setIsLittleEndian _ => Unit
  | .read _ | .readAt _ _ => List UInt8
  | .readFromFile _ => Bool
  | .recv _ _ => Int
  | .send _ _ => Int × List UInt8
  | .writeToFile _ => Bool × List UInt8
  | .getReadSize | .getPosition => Nat
  | .getEndian => Endian

abbrev Program (α : Type) : Type := Prog Cmd Cmd.Reply α

/-- What a program does with a byte array. -/
inductive Call
  | op (o : Op)
  /-- `SocketStream::read` -/
  | recv (length : Nat) (answer : SocketStream.Recvmsg)
  /-- `SocketStream::write` -/
  | send (length : Nat) (rt : Int)
  | writeToFile (opened : Bool)
  deriving DecidableEq, Repr

/-- What a caller gets from it. -/
inductive Returned
  | unit
  | flag (val : Bool)
  | bytes (l : List UInt8)
  | num (v : Num)
  | count (rt : Int)
  /-- with the bytes that have left the array -/
  | sent (rt : Int) (l : List UInt8)
  | file (val : Bool) (l : List UInt8)
  deriving DecidableEq, Repr

section Programs

variable (order : Endian)

def readProg (size : Nat) : Program (List UInt8) := .ask (Cmd.read size)

def writeProg (buf : List UInt8) : Program Unit := .ask (Cmd.write buf)

def readFixedProg (k : Nat) : Program Nat :=
  .call .getEndian fun endian : Endian => (readProg k).map fun bytes =>
    let v := ofLayout order bytes
    if endian = order then v else byteswap k v

def readFuint8Prog : Program UInt8 :=
  (readProg 1).map fun bytes => bytes.headD 0

def readVarintProg (bits : Nat) : Nat → Nat → Nat → Program Nat
  | 0, _, result => .ret result
  | count + 1, i, result =>
      readFuint8Prog.bind fun b =>
        if b < 0x80 then .ret (result ||| (b.toNat <<< i) % 2 ^ bits)
        else readVarintProg bits count (i + 7) (result ||| ((b &&& 0x7F).toNat <<< i) % 2 ^ bits)

def readNumProg : NumKind → Program Num
  | .fint8 => readFuint8Prog.map fun b => .fint8 b.toInt8
  | .fuint8 => readFuint8Prog.map .fuint8
  | .fint16 => (readFixedProg order 2).map fun n => .fint16 (UInt16.ofNat n).toInt16
  | .fuint16 => (readFixedProg order 2).map fun n => .fuint16 (UInt16.ofNat n)
  | .fint32 => (readFixedProg order 4).map fun n => .fint32 (UInt32.ofNat n).toInt32
  | .fuint32 => (readFixedProg order 4).map fun n => .fuint32 (UInt32.ofNat n)
  | .fint64 => (readFixedProg order 8).map fun n => .fint64 (UInt64.ofNat n).toInt64
  | .fuint64 => (readFixedProg order 8).map fun n => .fuint64 (UInt64.ofNat n)
  | .int32 => (readVarintProg 32 5 0 0).map fun n => .int32 (decodeZigzag32 (UInt32.ofNat n))
  | .uint32 => (readVarintProg 32 5 0 0).map fun n => .uint32 (UInt32.ofNat n)
  | .int64 => (readVarintProg 64 10 0 0).map fun n => .int64 (decodeZigzag64 (UInt64.ofNat n))
  | .uint64 => (readVarintProg 64 10 0 0).map fun n => .uint64 (UInt64.ofNat n)
  | .float => (readFixedProg order 4).map fun n => .float (UInt32.ofNat n)
  | .double => (readFixedProg order 8).map fun n => .double (UInt64.ofNat n)

def writeNumProg (v : Num) : Program Unit :=
  .call .getEndian fun endian : Endian => writeProg (v.encode order endian)

def readStringProg : StrKind → Program (List UInt8)
  | .F16 => (readFixedProg order 2).bind fun n => readProg (UInt16.ofNat n).toNat
  | .F32 => (readFixedProg order 4).bind fun n => readProg (UInt32.ofNat n).toNat
  | .F64 => (readFixedProg order 8).bind fun n => readProg (UInt64.ofNat n).toNat
  | .Vint => (readVarintProg 64 10 0 0).bind fun n => readProg (UInt64.ofNat n).toNat

def toStringProg : Program (List UInt8) :=
  .call .getReadSize fun n : Nat =>
    if n = 0 then .ret []
    else .call .getPosition fun p : Nat => .ask (Cmd.readAt n p)

def Op.prog : Op → Program Returned
  | .write buf => (writeProg buf).map fun _ => .unit
  | .read size => (readProg size).map .bytes
  | .readAt size position => .call (.readAt size position) fun l : List UInt8 => .ret (.bytes l)
  | .toString => toStringProg.map .bytes
  | .writeNum v => (writeNumProg order v).map fun _ => .unit
  | .readNum kind => (readNumProg order kind).map .num
  | .writeString kind value =>
      (writeNumProg order (kind.header value.length)).bind fun _ =>
        (writeProg value).map fun _ => .unit
  | .writeStringWithoutLength value => (writeProg value).map fun _ => .unit
  | .readString kind => (readStringProg order kind).map .bytes
  | .readFromFile file => .call (.readFromFile file) fun val : Bool => .ret (.flag val)
  | .setPosition v => .call (.setPosition v) fun _ => .ret .unit
  | .clear => .call .clear fun _ => .ret .unit
  | .getWriteBuffers len => .call (.getWriteBuffers len) fun _ => .ret .unit
  | .setIsLittleEndian val => .call (.setIsLittleEndian val) fun _ => .ret .unit

def Call.prog : Call → Program Returned
  | .op o => o.prog order
  | .recv length answer => .call (.recv length answer) fun rt : Int => .ret (.count rt)
  | .send length rt =>
      .call (.send length rt) fun r : Int × List UInt8 => .ret (.sent r.1 r.2)
  | .writeToFile opened =>
      .call (.writeToFile opened) fun r : Bool × List UInt8 => .ret (.file r.1 r.2)

end Programs

/-! ## The chain of blocks runs them -/

/-- `writeToFile`, with what the file holds afterwards. -/
def exportFile (s : ByteArray) (opened : Bool) : Result (Bool × List UInt8) :=
  (s.writeToFile opened).map fun r => (r.1, s.fileOf r.2)

def chain : Machine Cmd Cmd.Reply OutOfRange ByteArray
  | .write buf, s => (s.write buf).toEnding
  | .read size, s => (s.read size).toEnding
  | .readAt size position, s => (s.readAt size position).toEnding
  | .readFromFile file, s => (s.readFromFile file).toEnding
  | .setPosition v, s => (s.setPosition v).toEnding
  | .clear, s => .done () s.clear
  | .getWriteBuffers len, s => ((s.getWriteBuffers len).map fun _ => ()).toEnding
  | .recv length answer, s => (SocketStream.read true s length answer).toEnding
  | .send length rt, s => (SocketStream.write true s length rt).toEnding
  | .writeToFile opened, s => (s.exportFile opened).toEnding
  | .setIsLittleEndian val, s => .done () (s.setIsLittleEndian val)
  | .getReadSize, s => .done s.getReadSize s
  | .getPosition, s => .done s.position s
  | .getEndian, s => .done s.endian s

/-- An operation with what it gives to its caller. -/
def Op.perform (order : Endian) (s : ByteArray) : Op → Result Returned
  | .write buf => (s.write buf).map fun _ => .unit
  | .read size => (s.read size).map .bytes
  | .readAt size position => (s.readAt size position).map .bytes
  | .toString => s.toString.map .bytes
  | .writeNum v => (s.writeNum order v).map fun _ => .unit
  | .readNum kind => (s.readNum order kind).map .num
  | .writeString kind value => (s.writeString order kind value).map fun _ => .unit
  | .writeStringWithoutLength value => (s.writeStringWithoutLength value).map fun _ => .unit
  | .readString kind => (s.readString order kind).map .bytes
  | .readFromFile file => (s.readFromFile file).map .flag
  | .setPosition v => (s.setPosition v).map fun _ => .unit
  | .clear => .done .unit s.clear
  | .getWriteBuffers len => (s.getWriteBuffers len).map fun _ => .unit
  | .setIsLittleEndian val => .done .unit (s.setIsLittleEndian val)

def Call.perform (order : Endian) (s : ByteArray) : Call → Result Returned
  | .op o => o.perform order s
  | .recv length answer => (SocketStream.read true s length answer).map .count
  | .send length rt => (SocketStream.write true s length rt).map fun r => .sent r.1 r.2
  | .writeToFile opened => (s.exportFile opened).map fun r => .file r.1 r.2

/-- The calls of a program that holds a byte array, with what it gets from each: exceptions are
caught. -/
def performAll (order : Endian) :
    List Call → ByteArray → Option (List (Except OutOfRange Returned) × ByteArray)
  | [], s => some ([], s)
  | call :: rest, s =>
      match call.perform order s with
      | .done v s' => (performAll order rest s').map fun r => (.ok v :: r.1, r.2)
      | .thrown e s' => (performAll order rest s').map fun r => (.error e :: r.1, r.2)
      | .crash => none

section Chain

variable (order : Endian) (s : ByteArray)

/-- Nothing but the results has been added to `Op.apply`. -/
theorem perform_apply (op : Op) : (op.perform order s).map (fun _ => ()) = op.apply order s := by
  cases op with
  | write | writeStringWithoutLength | writeNum | writeString | setPosition =>
      exact Result.forget_unit _ _
  | clear | setIsLittleEndian => rfl
  | _ => exact Result.forget_map _ _

@[simp] theorem run_read (size : Nat) : (readProg size).run chain s = (s.read size).toEnding :=
  Prog.run_ask chain (Cmd.read size) s

@[simp] theorem run_write (buf : List UInt8) :
    (writeProg buf).run chain s = (s.write buf).toEnding :=
  Prog.run_ask chain (Cmd.write buf) s

theorem run_readFixed (k : Nat) :
    (readFixedProg order k).run chain s = (readFixed order k s).toEnding := by
  have hread := Prog.run_map chain
    (fun bytes : List UInt8 => if s.endian = order then ofLayout order bytes
      else byteswap k (ofLayout order bytes)) (readProg k) s
  rw [run_read] at hread
  rw [readFixed, Result.toEnding_map]
  exact hread

theorem run_readFuint8 : readFuint8Prog.run chain s = s.readFuint8.toEnding := by
  rw [readFuint8Prog, readFuint8, Prog.run_map, Result.toEnding_map, run_read]

theorem run_readVarint (bits count i result : Nat) :
    (readVarintProg bits count i result).run chain s =
      (readVarint bits count i result s).toEnding := by
  induction count generalizing i result s with
  | zero => rfl
  | succ count ih =>
      rw [readVarintProg, readVarint, Prog.run_bind, run_readFuint8, Result.toEnding_bind]
      congr 1
      funext b t
      split
      · rfl
      · exact ih t _ _

theorem run_readNum (kind : NumKind) :
    (readNumProg order kind).run chain s = (s.readNum order kind).toEnding := by
  cases kind with
  | fint8 =>
      -- the signed reader is the unsigned one up to the type of its result
      unfold readNumProg readNum
      rw [Prog.run_map, run_readFuint8]
      simp only [readFuint8, readFint8, Result.toEnding_map, Ending.bind_assoc,
        Ending.bind_done]
  | fuint8 =>
      unfold readNumProg readNum
      rw [Prog.run_map, run_readFuint8, Result.toEnding_map]
  | int32 | uint32 | int64 | uint64 =>
      unfold readNumProg readNum
      rw [Prog.run_map, run_readVarint]
      simp only [readInt32, readUint32, readInt64, readUint64, Result.toEnding_map,
        Ending.bind_assoc, Ending.bind_done]
  | _ =>
      unfold readNumProg readNum
      rw [Prog.run_map, run_readFixed]
      simp only [readFint16, readFuint16, readFint32, readFuint32, readFint64, readFuint64,
        readFloat, readDouble, Result.toEnding_map, Ending.bind_assoc, Ending.bind_done]

theorem run_writeNum (v : Num) :
    (writeNumProg order v).run chain s = (s.writeNum order v).toEnding := by
  rw [writeNum_eq]
  exact run_write s (v.encode order s.endian)

theorem run_readString (kind : StrKind) :
    (readStringProg order kind).run chain s = (s.readString order kind).toEnding := by
  cases kind with
  | Vint =>
      unfold readStringProg readString
      rw [Prog.run_bind, run_readVarint]
      simp only [readStringVint, readUint64, Result.toEnding_bind, Result.toEnding_map,
        Ending.bind_assoc, Ending.bind_done, run_read]
  | _ =>
      unfold readStringProg readString
      rw [Prog.run_bind, run_readFixed]
      simp only [readStringF16, readStringF32, readStringF64, readFuint16, readFuint32,
        readFuint64, Result.toEnding_bind, Result.toEnding_map, Ending.bind_assoc,
        Ending.bind_done, run_read]

theorem run_toString : toStringProg.run chain s = s.toString.toEnding := by
  have hread := Prog.run_ask chain (Cmd.readAt s.getReadSize s.position) s
  have hcall : toStringProg.run chain s =
      (if s.getReadSize = 0 then .ret []
        else .call .getPosition fun p : Nat => .ask (Cmd.readAt s.getReadSize p) :
          Program (List UInt8)).run chain s := rfl
  rw [hcall]
  unfold toString
  split
  · rfl
  · exact hread

/-- The chain runs the program of an operation as the code does. -/
theorem run_prog (op : Op) : (op.prog order).run chain s = (op.perform order s).toEnding := by
  cases op with
  | write buf =>
      unfold Op.prog Op.perform
      rw [Prog.run_map, run_write, Result.toEnding_map]
  | writeStringWithoutLength value =>
      unfold Op.prog Op.perform writeStringWithoutLength
      rw [Prog.run_map, run_write, Result.toEnding_map]
  | read size =>
      unfold Op.prog Op.perform
      rw [Prog.run_map, run_read, Result.toEnding_map]
  | readNum kind =>
      unfold Op.prog Op.perform
      rw [Prog.run_map, run_readNum, Result.toEnding_map]
  | writeNum v =>
      unfold Op.prog Op.perform
      rw [Prog.run_map, run_writeNum, Result.toEnding_map]
  | readString kind =>
      unfold Op.prog Op.perform
      rw [Prog.run_map, run_readString, Result.toEnding_map]
  | toString =>
      unfold Op.prog Op.perform
      rw [Prog.run_map, run_toString, Result.toEnding_map]
  | writeString kind value =>
      unfold Op.prog Op.perform
      rw [Prog.run_bind, run_writeNum, Result.toEnding_map, writeString_eq,
        Result.toEnding_bind, Ending.bind_assoc]
      simp only [Prog.run_map, run_write]
  | readAt size position => exact (Result.toEnding_map _ _).symm
  | readFromFile file => exact (Result.toEnding_map _ _).symm
  | setPosition v => exact (Result.toEnding_map _ _).symm
  | getWriteBuffers len =>
      show ((s.getWriteBuffers len).map fun _ => ()).toEnding.bind _ =
        ((s.getWriteBuffers len).map fun _ => Returned.unit).toEnding
      cases s.getWriteBuffers len <;> rfl
  | clear | setIsLittleEndian val => rfl

theorem run_call (call : Call) :
    (call.prog order).run chain s = (call.perform order s).toEnding := by
  cases call with
  | op o => exact run_prog order s o
  | recv length answer => exact (Result.toEnding_map _ _).symm
  | send length rt => exact (Result.toEnding_map _ _).symm
  | writeToFile opened => exact (Result.toEnding_map _ _).symm

theorem performAll_eq (calls : List Call) :
    performAll order calls s = Prog.session chain (calls.map (Call.prog order)) s := by
  induction calls generalizing s with
  | nil => rfl
  | cons call rest ih =>
      rw [List.map_cons, performAll, Prog.session, run_call]
      cases call.perform order s with
      | done v t =>
          dsimp only [Result.toEnding]
          rw [ih]
      | thrown e t =>
          dsimp only [Result.toEnding]
          rw [ih]
      | crash => rfl

end Chain

/-! ## The flat buffer -/

/-- A text, a position in it and the byte order of numbers. -/
structure Flat where
  data : List UInt8 := []
  position : Nat := 0
  endian : Endian := .big
  deriving DecidableEq, Repr

namespace Flat

/-- The text with `buf` from the position on, which moves behind it. -/
def put (t : Flat) (buf : List UInt8) : Flat :=
  { t with data := splice t.data t.position buf, position := t.position + buf.length }

theorem put_nil (t : Flat) : t.put [] = t := by
  rw [put, splice_nil]
  rfl

/-- Sums of sizes do not wrap below this one. -/
def Room (t : Flat) (n : Nat) : Prop := t.position + n < 2 ^ 53

instance (t : Flat) (n : Nat) : Decidable (t.Room n) := inferInstanceAs (Decidable (_ < _))

end Flat

def flat : Machine Cmd Cmd.Reply OutOfRange Flat
  | .write buf, t => if t.Room buf.length then .done () (t.put buf) else .undefined
  | .read size, t =>
      if t.data.length < t.position + size then .thrown .notEnoughLen t
      else if size = 0 ∧ t.position = t.data.length then .undefined
      else .done ((t.data.drop t.position).take size) { t with position := t.position + size }
  | .readAt size position, t =>
      if size ≠ 0 ∧ position = t.position ∧ t.position + size ≤ t.data.length then
        .done ((t.data.drop t.position).take size) t
      else .undefined
  | .readFromFile none, t => .done false t
  | .readFromFile (some content), t =>
      if t.Room content.length then .done true (t.put content) else .undefined
  | .setPosition v, t =>
      if v ≤ t.data.length then .done () { t with position := v } else .undefined
  | .clear, t => .done () { t with data := [], position := 0 }
  | .getWriteBuffers len, t => if t.Room len then .done () t else .undefined
  -- without a buffer there is no `iovs[0]`
  | .recv length none, t =>
      if 0 < length ∧ t.Room length then .done (-1 : Int) t else .undefined
  | .recv length (some data), t =>
      if 0 < length ∧ t.Room length ∧ data.length ≤ length ∧ data.length < 2 ^ 31 then
        .done (data.length : Int) (t.put data)
      else .undefined
  | .send length rt, t =>
      if length = 0 ∨ t.data.length ≤ t.position then .undefined
      else if rt ≤ 0 then .done (rt, []) t
      else if rt ≤ length ∧ t.position + rt ≤ t.data.length then
        .done (rt, (t.data.drop t.position).take rt.toNat)
          { t with position := t.position + rt.toNat }
      else .undefined
  | .writeToFile false, t => .done (false, []) t
  | .writeToFile true, t =>
      if t.position = 0 ∨ t.position = t.data.length then .done (true, t.data.drop t.position) t
      else .undefined
  | .setIsLittleEndian val, t => .done () { t with endian := if val then .little else .big }
  | .getReadSize, t => .done (t.data.length - t.position) t
  | .getPosition, t => .done t.position t
  | .getEndian, t => .done t.endian t

/-- The chain `s` holds the flat buffer `t`. -/
structure Shows (s : ByteArray) (t : Flat) : Prop where
  wf : Wf s
  content : s.content = t.data
  position : s.position = t.position
  endian : s.endian = t.endian

variable {t : Flat}

theorem Shows.size (h : Shows s t) : s.size = t.data.length := by
  rw [← h.content, h.wf.length_content]

/-- Writing from the position on is a splice of the content. -/
theorem Written.content {data : List UInt8} (h : Wf s) (hw : Written s s' data) :
    s'.content = splice s.content s.position data := by
  have hcap := h.size
  have hpos := h.position
  have hsize := hw.size
  have hlen := h.length_content
  have hlength : (splice s.content s.position data).length = s'.size := by
    simp only [splice, List.length_append, List.length_take, List.length_drop, hlen]
    omega
  apply List.ext_getElem?
  intro j
  by_cases hj : j < s'.size
  · rw [ByteArray.content, List.getElem?_take_of_lt hj]
    by_cases hin : s.position ≤ j ∧ j < s.position + data.length
    · have hhold := hw.holds (j - s.position) (by omega)
      have hput := holds_splice (x := data) (show s.position ≤ s.content.length by omega)
        (j - s.position) (by omega)
      rw [Nat.add_sub_cancel' hin.1] at hhold hput
      rw [hhold, hput]
    · have hold : s.content[j]? = s.bytes[j]? := List.getElem?_take_of_lt (by omega)
      rw [hw.outside j (by omega) (by omega), getElem?_splice (by omega) (by omega), hold]
  · rw [List.getElem?_eq_none (by rw [hw.wf.length_content]; omega),
      List.getElem?_eq_none (by omega)]

theorem readFileLoop_endian {fuel : Nat} {content : List UInt8}
    (h : readFileLoop fuel s content = .done () s') : s'.endian = s.endian := by
  induction fuel generalizing s content with
  | zero =>
      cases h
      rfl
  | succ fuel ih =>
      unfold readFileLoop at h
      cases hw : s.write (content.take s.baseSize) with
      | done a t =>
          rw [hw, Result.bind_done] at h
          rw [← write_endian hw]
          split at h
          · cases h
            rfl
          · exact ih h
      | thrown e t =>
          rw [hw] at h
          cases h
      | crash =>
          rw [hw] at h
          cases h

/-- Data written to the chain are put into the buffer. -/
theorem Shows.put (h : Shows s t) {data : List UInt8} (hw : Written s s' data)
    (hend : s'.endian = s.endian) : Shows s' (t.put data) where
  wf := hw.wf
  content := by rw [hw.content h.wf, h.content, h.position]; rfl
  position := by rw [hw.position, h.position]; rfl
  endian := hend.trans h.endian

/-- The chain has what is read in the buffer, and moves with it. -/
theorem Shows.seek (h : Shows s t) {p : Nat} (hp : p ≤ t.data.length) :
    Shows (s.seek p) { t with position := p } where
  wf := h.wf.seek (h.size ▸ hp)
  content := h.content
  position := rfl
  endian := h.endian

theorem Shows.read (h : Shows s t) {n : Nat} (hfit : t.position + n ≤ t.data.length)
    (hn : n ≠ 0 ∨ t.position ≠ t.data.length) :
    s.read n = .done ((t.data.drop t.position).take n) (s.seek (t.position + n)) := by
  have hsize := h.size
  have hpos := h.position
  by_cases hzero : n = 0
  · subst hzero
    have hcap := h.wf.size
    rw [read_zero h.wf, if_neg (by omega), Nat.add_zero, ← hpos, h.wf.seek_position, List.take_zero]
  · rw [read_eq h.wf (by omega) (by omega), ← slice_content (by omega), h.content, hpos]

theorem Shows.addCapacity (h : Shows s t) {n : Nat} (hroom : t.Room n) (hn : 0 < n) :
    Shows (s.addCapacity n) t := by
  have hpos := h.position
  have hlen := h.wf.length_bytes
  have hcap := h.wf.size
  obtain ⟨new, hbytes, hwf, -, hpos', hsize', hend', -, -⟩ :=
    addCapacity_spec h.wf (by rw [hpos]; exact hroom) hn
  refine ⟨hwf, ?_, hpos'.trans hpos, hend'.trans h.endian⟩
  have hcontent : (s.addCapacity n).content = s.content := by
    rw [ByteArray.content, ByteArray.content, hbytes, hsize',
      List.take_append_of_le_length (by omega)]
  exact hcontent.trans h.content

/-- The buffers are there as soon as the capacity is. -/
theorem getWriteBuffers_done (h : Shows s t) {n : Nat} (hroom : t.Room n) (hn : 0 < n) :
    ∃ iovs, s.getWriteBuffers n = .done iovs (s.addCapacity n) := by
  have hpos := h.position
  obtain ⟨-, -, hwf, -, hpos', -, -, hbase, hfit⟩ :=
    addCapacity_spec h.wf (by rw [hpos]; exact hroom) hn
  rw [← hpos'] at hfit
  obtain ⟨iovs, hiovs, -⟩ := buffersFrom_covers (i := (s.addCapacity n).position / s.baseSize)
    hwf.base hwf.tail_blocks (Nat.mod_lt (s.addCapacity n).position hwf.base)
    (hwf.tail_room hfit) hn
  rw [hbase, tail, hbase] at hiovs
  unfold getWriteBuffers
  rw [if_neg (by omega)]
  dsimp only
  rw [hwf.cur_eq (by omega), hbase]
  dsimp only
  rw [hiovs]
  exact ⟨iovs, rfl⟩

/-- A call that gets no byte, or fails, has made room. -/
theorem Shows.recv_nothing (h : Shows s t) {n : Nat} (hn : 0 < n) (hroom : t.Room n) :
    ∃ s', SocketStream.read true s n none = .done (-1) s' ∧
      SocketStream.read true s n (some []) = .done 0 s' ∧ Shows s' t := by
  obtain ⟨iovs, hiovs⟩ := getWriteBuffers_done h hroom hn
  refine ⟨s.addCapacity n, ?_, ?_, h.addCapacity hroom hn⟩
  · unfold SocketStream.read
    rw [if_pos rfl, hiovs, Result.bind_done]
  · unfold SocketStream.read
    rw [if_pos rfl, hiovs, Result.bind_done]
    dsimp only
    rw [scatter_nil]
    rfl

theorem setPosition_endian {v : Nat} (h : s.setPosition v = .done () s') :
    s'.endian = s.endian := by
  unfold setPosition at h
  split at h
  · cases h
  · split at h
    · cases h
    · cases h
      rfl

theorem recv_endian {n : Nat} {iovs : List Iovec} {data : List UInt8} {rt : Int}
    (hiovs : s.getWriteBuffers n = .done iovs (s.addCapacity n))
    (h : SocketStream.read true s n (some data) = .done rt s') : s'.endian = s.endian := by
  unfold SocketStream.read at h
  rw [if_pos rfl, hiovs, Result.bind_done] at h
  dsimp only at h
  split at h
  · cases hset : setPosition { s.addCapacity n with
        nodes := scatter (s.addCapacity n).nodes iovs data }
        ((s.addCapacity n).position + (toInt data.length).toNat) with
    | done a u =>
        rw [hset] at h
        cases h
        exact (setPosition_endian hset).trans (addCapacity_endian s n)
    | thrown e u =>
        rw [hset] at h
        cases h
    | crash =>
        rw [hset] at h
        cases h
  · cases h
    exact addCapacity_endian s n

/-- The bytes that come are put into the buffer. -/
theorem Shows.recv (h : Shows s t) {n : Nat} {data : List UInt8} (hroom : t.Room n)
    (hdata : data ≠ []) (hle : data.length ≤ n) (h31 : data.length < 2 ^ 31) :
    ∃ s', SocketStream.read true s n (some data) = .done data.length s' ∧
      Shows s' (t.put data) := by
  have hpos := List.length_pos_of_ne_nil hdata
  obtain ⟨iovs, hiovs⟩ := getWriteBuffers_done h hroom (hpos.trans_le hle)
  obtain ⟨s', heq, hover⟩ := SocketStream.read_overwrites h.wf hpos hle h31
    (by rw [h.position]; exact hroom)
  refine ⟨s', heq, hover.wf, ?_, ?_, ?_⟩
  · rw [hover.content, h.content, h.position]
    rfl
  · rw [hover.position, h.position]
    rfl
  · exact (recv_endian hiovs heq).trans h.endian

/-- A file from the start of the data, or from their end. -/
theorem Shows.exportFile (h : Shows s t) (hat : t.position = 0 ∨ t.position = t.data.length) :
    s.exportFile true = .done (true, t.data.drop t.position) s := by
  have hexportable : Exportable s := by
    rcases hat with hat | hat
    · refine .inr (.inl ?_)
      rw [h.position, hat, Nat.zero_mod]
    · refine .inl ?_
      rw [h.size, h.position, hat]
  -- the stretches cover the content behind the position
  obtain ⟨calls, hcall, -, hcov⟩ := exports_of_exportable h.wf hexportable
  have hlen := h.wf.length_content
  have hfile : s.fileOf calls = s.content.drop s.position := by
    have hgather := h.wf.gather_eq hcov le_rfl
    rw [List.take_of_length_le (by rw [List.length_drop]; omega)] at hgather
    exact hgather
  unfold ByteArray.exportFile
  rw [hcall, Result.map_done, hfile, h.content, h.position]

theorem Shows.clear (h : Shows s t) : Shows s.clear { t with data := [], position := 0 } where
  wf := wf_clear h.wf
  content := List.take_zero
  position := rfl
  endian := h.endian

/-- The chain does with every command what the flat buffer does. -/
theorem chain_refines : Refines chain flat Shows := by
  intro c s t h
  have hsize := h.size
  have hpos := h.position
  cases c with
  | write buf =>
      by_cases hroom : t.Room buf.length
      · obtain ⟨s', heq, hw⟩ := written_write_any h.wf buf (by rw [hpos]; exact hroom)
        simp only [chain, flat, if_pos hroom, heq]
        exact Ending.follows_done () (h.put hw (write_endian heq))
      · simp only [flat, if_neg hroom]
        trivial
  | read n =>
      by_cases hshort : t.data.length < t.position + n
      · have hthrown := read_thrown h.wf (n := n) (by omega)
        simp only [chain, flat, if_pos hshort, hthrown]
        exact ⟨s, rfl, h⟩
      · by_cases hend : n = 0 ∧ t.position = t.data.length
        · simp only [flat, if_neg hshort, if_pos hend]
          trivial
        · simp only [chain, flat, if_neg hshort, if_neg hend]
          rw [h.read (by omega) (by omega)]
          exact Ending.follows_done _ (h.seek (by omega))
  | readAt n position =>
      by_cases hin : n ≠ 0 ∧ position = t.position ∧ t.position + n ≤ t.data.length
      · have ⟨hn, hat, hfit⟩ := hin
        have hread := readAt_position h.wf (n := n) (by omega) (by omega)
        rw [hpos, h.content] at hread
        simp only [chain, flat, if_pos hin]
        rw [hat, hread]
        exact Ending.follows_done _ h
      · simp only [flat, if_neg hin]
        trivial
  | readFromFile file =>
      cases file with
      | none => exact Ending.follows_done false h
      | some content =>
          by_cases hroom : t.Room content.length
          · obtain ⟨s', heq, hw⟩ := readFileLoop_written h.wf (Nat.lt_succ_self content.length)
              (by rw [hpos]; exact hroom)
            have hfile : s.readFromFile (some content) = .done true s' := by
              unfold readFromFile
              dsimp only
              rw [heq, Result.map_done]
            simp only [chain, flat, if_pos hroom, hfile]
            exact Ending.follows_done true (h.put hw (readFileLoop_endian heq))
          · simp only [flat, if_neg hroom]
            trivial
  | setPosition v =>
      by_cases hv : v ≤ t.data.length
      · have hcap := h.wf.size
        have hmax : max s.size v = s.size := Nat.max_eq_left (by omega)
        have hset := setPosition_eq h.wf (show v ≤ s.capacity by omega)
        rw [hmax] at hset
        simp only [chain, flat, if_pos hv, hset]
        exact Ending.follows_done () (h.seek hv)
      · simp only [flat, if_neg hv]
        trivial
  | clear => exact Ending.follows_done () h.clear
  | getWriteBuffers len =>
      by_cases hroom : t.Room len
      · simp only [chain, flat, if_pos hroom]
        rcases Nat.eq_zero_or_pos len with rfl | hlen
        · exact Ending.follows_done () h
        · obtain ⟨iovs, hiovs⟩ := getWriteBuffers_done h hroom hlen
          rw [hiovs]
          exact Ending.follows_done () (h.addCapacity hroom hlen)
      · simp only [flat, if_neg hroom]
        trivial
  | recv length answer =>
      cases answer with
      | none =>
          by_cases hfits : 0 < length ∧ t.Room length
          · obtain ⟨s', heq, -, hshows⟩ := h.recv_nothing hfits.1 hfits.2
            simp only [chain, flat, if_pos hfits, heq]
            exact Ending.follows_done (-1 : Int) hshows
          · simp only [flat, if_neg hfits]
            trivial
      | some data =>
          by_cases hfits : 0 < length ∧ t.Room length ∧ data.length ≤ length ∧ data.length < 2 ^ 31
          · have ⟨hlen, hroom, hle, h31⟩ := hfits
            simp only [chain, flat, if_pos hfits]
            by_cases hdata : data = []
            · -- the end of the stream: `setPosition` is not called
              subst hdata
              obtain ⟨s', -, heq, hshows⟩ := h.recv_nothing hlen hroom
              rw [heq]
              refine Ending.follows_done (0 : Int) ?_
              rw [Flat.put_nil]
              exact hshows
            · obtain ⟨s', heq, hshows⟩ := h.recv hroom hdata hle h31
              rw [heq]
              exact Ending.follows_done _ hshows
          · simp only [flat, if_neg hfits]
            trivial
  | send length rt =>
      by_cases hempty : length = 0 ∨ t.data.length ≤ t.position
      · simp only [flat, if_pos hempty]
        trivial
      by_cases hrt : rt ≤ 0
      · simp only [chain, flat, if_neg hempty, if_pos hrt, SocketStream.write_fails h.wf length hrt]
        exact Ending.follows_done _ h
      · by_cases hfits : rt ≤ length ∧ t.position + rt ≤ t.data.length
        · obtain ⟨k, rfl⟩ := Int.eq_ofNat_of_zero_le (Int.not_le.mp hrt).le
          have hsends : SocketStream.write true s length k = _ :=
            SocketStream.write_sends h.wf (by omega) (by omega) (by omega)
          simp only [chain, flat, if_neg hempty, if_neg hrt, if_pos hfits, hsends]
          rw [h.content, hpos]
          exact Ending.follows_done _ (h.seek (by omega))
        · simp only [flat, if_neg hempty, if_neg hrt, if_neg hfits]
          trivial
  | writeToFile opened =>
      cases opened with
      | false => exact Ending.follows_done _ h
      | true =>
          by_cases hat : t.position = 0 ∨ t.position = t.data.length
          · simp only [chain, flat, if_pos hat, h.exportFile hat]
            exact Ending.follows_done _ h
          · simp only [flat, if_neg hat]
            trivial
  | setIsLittleEndian val =>
      exact Ending.follows_done () ⟨⟨h.wf.base, h.wf.blocks, h.wf.root, h.wf.capacity,
        h.wf.position, h.wf.size, h.wf.cur, h.wf.small⟩, h.content, h.position, rfl⟩
  | getReadSize =>
      have hleft : s.getReadSize = t.data.length - t.position := by
        rw [h.wf.getReadSize_eq, hsize, hpos]
      simp only [chain, flat, hleft]
      exact Ending.follows_done _ h
  | getPosition => exact ⟨s, by rw [chain, hpos], h⟩
  | getEndian => exact ⟨s, by rw [chain, h.endian], h⟩

theorem shows_new {b : Nat} (hb : 0 < b) (h53 : b < 2 ^ 53) (heap : Nat → Nat → UInt8) :
    Shows (new b heap) {} where
  wf := wf_new hb h53
  content := List.take_zero
  position := rfl
  endian := rfl

/-- A number and a string over three blocks, read back from the start, and a read too far; then
three bytes come through a socket, and everything goes into a file. -/
def flatTrace : List Call :=
  [.op (.writeNum (.fint32 (-2))), .op (.writeString .Vint [97, 98, 99]), .op (.setPosition 0),
    .op (.readNum .fint32), .op (.readString .Vint), .op (.read 1), .op .toString,
    .recv 5 (some [1, 2, 3]), .op (.setPosition 0), .writeToFile true, .send 4 2]

end ByteArray

end Gxh
