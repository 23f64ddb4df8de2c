import Gxh.Lib.Word
import Mathlib.Logic.Function.Basic

/-!
# Descriptors and their contexts

`FdCtx` and `FdManager` (`fd_manager.cc`), over the part of the kernel they read and
write: the table from descriptor numbers to open file descriptions, and for each
description whether it is a socket and whether `O_NONBLOCK` is set.

`m_datas` is a total function here: past its end `get` finds no context and `del` does
nothing, which is what an empty entry gives.
-/

namespace Gxh.Hook

/-- An open file description. No two `socket` or `accept` calls return the same one. -/
abbrev DescId := Nat

structure Desc where
  isSocket : Bool
  nonblock : Bool
  deriving DecidableEq, Repr

structure Kernel where
  fds : Nat → Option DescId
  desc : DescId → Desc
  next : DescId

namespace Kernel

/-- A system call returns the new descriptor `n`. -/
def create (k : Kernel) (n : Nat) (d : Desc) : Kernel where
  fds := Function.update k.fds n (some k.next)
  desc := Function.update k.desc k.next d
  next := k.next + 1

/-- `close_f`. -/
def close (k : Kernel) (n : Nat) : Kernel :=
  { k with fds := Function.update k.fds n none }

/-- `fcntl_f(fd, F_SETFL, flags | O_NONBLOCK)`. -/
def setNonblock (k : Kernel) (d : DescId) : Kernel :=
  { k with desc := Function.update k.desc d { k.desc d with nonblock := true } }

@[simp] theorem create_fds_self (k : Kernel) (n : Nat) (d : Desc) :
    (k.create n d).fds n = some k.next := by simp [create]

theorem create_fds_of_ne (k : Kernel) {n m : Nat} (d : Desc) (h : m ≠ n) :
    (k.create n d).fds m = k.fds m := by simp [create, h]

theorem close_fds (k : Kernel) (n m : Nat) :
    (k.close n).fds m = none ∨ (k.close n).fds m = k.fds m := by
  by_cases h : m = n
  · exact .inl (by simp [close, h])
  · exact .inr (by simp [close, h])

end Kernel

/-- The two timeout options. -/
inductive TimeoutSo
  | SO_RCVTIMEO
  | SO_SNDTIMEO
  deriving DecidableEq, Repr

structure FdCtx where
  isInit : Bool
  isSocket : Bool
  sysNonblock : Bool
  userNonblock : Bool
  isClosed : Bool
  fd : Nat
  recvTimeout : Nat
  sendTimeout : Nat
  deriving DecidableEq, Repr

namespace FdCtx

/-- `FdCtx::FdCtx`, which runs `init`: `fstat`, and `O_NONBLOCK` for a socket. A timeout
of `-1` is no timeout. -/
def new (k : Kernel) (fd : Nat) : FdCtx × Kernel :=
  let ctx : FdCtx :=
    { isInit := false, isSocket := false, sysNonblock := false, userNonblock := false,
      isClosed := false, fd, recvTimeout := max64, sendTimeout := max64 }
  match k.fds fd with
  | none => (ctx, k)
  | some d =>
      if (k.desc d).isSocket then
        ({ ctx with isInit := true, isSocket := true, sysNonblock := true },
          if (k.desc d).nonblock then k else k.setNonblock d)
      else ({ ctx with isInit := true }, k)

def setTimeout (c : FdCtx) (type : TimeoutSo) (v : Nat) : FdCtx :=
  match type with
  | .SO_RCVTIMEO => { c with recvTimeout := v }
  | .SO_SNDTIMEO => { c with sendTimeout := v }

def getTimeout (c : FdCtx) : TimeoutSo → Nat
  | .SO_RCVTIMEO => c.recvTimeout
  | .SO_SNDTIMEO => c.sendTimeout

/-- Making a context changes no entry of the descriptor table. -/
theorem new_fds (k : Kernel) (fd : Nat) : (new k fd).2.fds = k.fds := by
  unfold new
  split
  · rfl
  · split
    · dsimp only
      split <;> rfl
    · rfl

end FdCtx

/-- `FdManager`, with the `FdCtx` objects by their addresses: callers of `get` hold on to
the object after the table drops it. -/
structure FdManager where
  heap : Nat → Option FdCtx
  next : Nat
  datas : Nat → Option Nat

namespace FdManager

def empty : FdManager := ⟨fun _ => none, 0, fun _ => none⟩

/-- `get(fd)`. -/
def get (m : FdManager) (fd : Nat) : Option Nat := m.datas fd

/-- The second half of `get(fd, true)`, under the write lock. -/
def create (m : FdManager) (k : Kernel) (fd : Nat) : FdManager × Kernel :=
  let (ctx, k') := FdCtx.new k fd
  ({ heap := Function.update m.heap m.next (some ctx), next := m.next + 1,
     datas := Function.update m.datas fd (some m.next) }, k')

def del (m : FdManager) (fd : Nat) : FdManager :=
  { m with datas := Function.update m.datas fd none }

/-- Assignment through the pointer `get(fd)` returns. -/
def modify (m : FdManager) (fd : Nat) (f : FdCtx → FdCtx) : FdManager :=
  match m.datas fd with
  | none => m
  | some p => { m with heap := Function.update m.heap p ((m.heap p).map f) }

end FdManager

end Gxh.Hook
