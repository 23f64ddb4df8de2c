import Gxh.Lib.TSys
import Gxh.IOManager.Dispatch
import Gxh.Hook.FdManager

/-!
# Hooked I/O calls and descriptor reuse

`do_io`, the hooked `close` and the creation of descriptors by the hooked `socket` and
`accept` (`hook.cc`), as steps of fibers that interleave freely. The IO manager is the
state of `Dispatch`; a fiber that waits in `do_io` runs on when `triggerEvent` has
scheduled it.

* `Pc` is a fiber's place in the call it has entered. `Call.entry` is the description its
  descriptor named at that moment; the source does not know it.
* `HookState.calls` records, for each system call made inside `do_io` or by the callback of
  its timer, the description at entry and the one the number names now.
* `FreshNumber` is the condition under which the two agree: the kernel hands out a number
  only when no `do_io` on it, and no callback of its timer, still has a system call to make.
-/

namespace Gxh.Hook

open IOManager

/-- The functions hooked through `do_io`. -/
inductive HookFun
  | accept
  | read
  | readv
  | recv
  | recvfrom
  | recvmsg
  | write
  | writev
  | send
  | sendto
  | sendmsg
  deriving DecidableEq, Repr

/-- The event each passes to `do_io`. -/
def HookFun.event : HookFun → Event
  | .accept | .read | .readv | .recv | .recvfrom | .recvmsg => .READ
  | .write | .writev | .send | .sendto | .sendmsg => .WRITE

/-- The timeout each passes to `do_io`. -/
def HookFun.timeoutSo : HookFun → TimeoutSo
  | .accept | .read | .readv | .recv | .recvfrom | .recvmsg => .SO_RCVTIMEO
  | .write | .writev | .send | .sendto | .sendmsg => .SO_SNDTIMEO

/-- One invocation of `do_io`. -/
structure Call where
  fn : HookFun
  fd : Nat
  entry : Option DescId
  deriving DecidableEq, Repr

/-- The locals `to` and `tinfo`. -/
structure Wait where
  timeout : Nat
  tinfo : Nat
  deriving DecidableEq, Repr

/-- Where a fiber stands. -/
inductive Pc
  | out
  /-- at `FdMgr::get` of `do_io` -/
  | entered (c : Call)
  /-- with the context in hand, before its tests -/
  | got (c : Call) (ctx : Nat)
  /-- at a call of `fun` whose result is returned as it is -/
  | plain (c : Call)
  /-- at `retry` -/
  | attempt (c : Call) (w : Wait)
  /-- after `EAGAIN` -/
  | again (c : Call) (w : Wait)
  /-- with the condition timer armed, at `addEvent` -/
  | armed (c : Call) (w : Wait)
  /-- in `yield` -/
  | parked (c : Call) (w : Wait)
  /-- `socket_f` or `accept_f` has returned a number, before `FdMgr::get(fd, true)` -/
  | opened (fd : Nat)
  /-- between the read lock and the write lock of `FdMgr::get(fd, true)` -/
  | creating (fd : Nat)
  /-- in the hooked `close`, at `cancelAll` -/
  | closing (fd : Nat)
  /-- at `FdMgr::del` -/
  | deleting (fd : Nat)
  /-- at `close_f` -/
  | lastClose (fd : Nat)
  deriving DecidableEq, Repr

/-- The condition timer of a wait. Its callback captures `fd` and `event` of the call. -/
structure IoTimer where
  tinfo : Nat
  call : Call
  deriving DecidableEq, Repr

structure HookState where
  kernel : Kernel
  fdMgr : FdManager
  iom : Dispatch
  pc : FiberId → Pc
  /-- `timer_info` objects: destroyed, or alive with `cancelled` set or not -/
  tinfo : Nat → Option Bool
  nextTinfo : Nat
  timers : List IoTimer
  /-- expired timers whose callback has not run -/
  due : List IoTimer
  /-- callbacks that have set `cancelled` and are about to call `cancelEvent` -/
  cancelling : List IoTimer
  calls : List (Option DescId × Option DescId)

namespace HookState

/-- The descriptors below 5 (standard streams and the IO manager's own) are open. -/
def start : HookState where
  kernel := { fds := fun n => if n < 5 then some n else none
              desc := fun _ => ⟨false, false⟩
              next := 5 }
  fdMgr := .empty
  iom := .start
  pc := fun _ => .out
  tinfo := fun _ => none
  nextTinfo := 0
  timers := []
  due := []
  cancelling := []
  calls := []

def setPc (s : HookState) (f : FiberId) (p : Pc) : HookState :=
  { s with pc := Function.update s.pc f p }

/-- A system call on `c.fd`. -/
def syscall (s : HookState) (c : Call) : HookState :=
  { s with calls := (c.entry, s.kernel.fds c.fd) :: s.calls }

/-- `timer->cancel()` and the destruction of `tinfo` as `do_io` returns. -/
def finish (s : HookState) (f : FiberId) (w : Wait) : HookState :=
  { s.setPc f .out with
    timers := s.timers.filter fun t => t.tinfo != w.tinfo
    tinfo := Function.update s.tinfo w.tinfo none }

/-- The kernel hands out the number `n`, to a socket. -/
def handOut (s : HookState) (n : Nat) : HookState :=
  { s with kernel := s.kernel.create n ⟨true, false⟩ }

/-- `close_f`; a closed description leaves the interest list. -/
def closeFd (s : HookState) (n : Nat) : HookState :=
  { s with kernel := s.kernel.close n, iom := s.iom.setInterest n none }

/-- The task `triggerEvent` schedules for a fiber. -/
def wakeup (f : FiberId) : Option Nat × ScheduleTask := (some 0, .ofFiber f none)

/-- Whether the task is in the queue. -/
instance decidableScheduled (f : FiberId) (l : List (Option Nat × ScheduleTask)) :
    Decidable (wakeup f ∈ l) :=
  inferInstance

end HookState

/-- What `fun` answers: a result that ends the loop, `EINTR`, `EAGAIN`, or for `accept` a
new descriptor. -/
inductive IoResult
  | done
  | EINTR
  | EAGAIN
  | accepted (n : Nat)
  deriving DecidableEq, Repr

/-- On a closed number every call fails with `EBADF`; a new descriptor was free. -/
def IoResult.possible (s : HookState) (c : Call) : IoResult → Bool
  | .done => true
  | .EINTR | .EAGAIN => (s.kernel.fds c.fd).isSome
  | .accepted n => c.fn == .accept && (s.kernel.fds c.fd).isSome && (s.kernel.fds n).isNone

/-- The steps of the fibers, of the expiring timers and of the IO manager. -/
inductive HookAct
  | enter (f : FiberId) (fn : HookFun) (fd : Nat) (hooked : Bool)
  | get (f : FiberId)
  | check (f : FiberId)
  | plainCall (f : FiberId) (r : IoResult)
  | attempt (f : FiberId) (r : IoResult)
  | arm (f : FiberId)
  | addEvent (f : FiberId) (ok : Bool)
  | resume (f : FiberId)
  | expire (t : IoTimer)
  | runCb (t : IoTimer)
  | cancelEvent (t : IoTimer) (ok : Bool)
  | socket (f : FiberId) (n : Nat) (hooked : Bool)
  | getCreate (f : FiberId)
  | create (f : FiberId)
  | close (f : FiberId) (fd : Nat) (hooked : Bool)
  | cancelAll (f : FiberId) (hasIom ok : Bool)
  | del (f : FiberId)
  | closeFd (f : FiberId)
  | setUserNonblock (fd : Nat) (v : Bool)
  | setTimeout (fd : Nat) (type : TimeoutSo) (v : Nat)
  | io (a : DispatchAct)
  deriving DecidableEq, Repr

/-- One step; `none` when the fiber is not at the place, or an assertion has ended the
process. -/
def hookStep (s : HookState) (a : HookAct) : Option HookState :=
  if s.iom.aborted.isSome then none
  else
    match a with
    | .enter f fn fd hooked =>
        if s.pc f = .out then
          let c : Call := ⟨fn, fd, s.kernel.fds fd⟩
          some (s.setPc f (if hooked then .entered c else .plain c))
        else none
    | .get f =>
        match s.pc f with
        | .entered c =>
            match s.fdMgr.get c.fd with
            | none => some (s.setPc f (.plain c))
            | some ctx => some (s.setPc f (.got c ctx))
        | _ => none
    | .check f =>
        match s.pc f with
        | .got c p =>
            match s.fdMgr.heap p with
            | none => none
            | some ctx =>
                if ctx.isClosed then some (s.setPc f .out)
                else if !ctx.isSocket || ctx.userNonblock then some (s.setPc f (.plain c))
                else
                  some { s.setPc f (.attempt c ⟨ctx.getTimeout c.fn.timeoutSo, s.nextTinfo⟩) with
                    tinfo := Function.update s.tinfo s.nextTinfo (some false)
                    nextTinfo := s.nextTinfo + 1 }
        | _ => none
    | .plainCall f r =>
        match s.pc f with
        | .plain c =>
            if r.possible s c then
              match r with
              | .accepted n => some (((s.syscall c).handOut n).setPc f (.opened n))
              | _ => some ((s.syscall c).setPc f .out)
            else none
        | _ => none
    | .attempt f r =>
        match s.pc f with
        | .attempt c w =>
            if r.possible s c then
              match r with
              | .done => some ((s.syscall c).finish f w)
              | .EINTR => some (s.syscall c)
              | .EAGAIN => some ((s.syscall c).setPc f (.again c w))
              | .accepted n => some ((((s.syscall c).finish f w).handOut n).setPc f (.opened n))
            else none
        | _ => none
    | .arm f =>
        match s.pc f with
        | .again c w =>
            if w.timeout = max64 then some (s.setPc f (.armed c w))
            else
              some { s.setPc f (.armed c w) with
                timers := ⟨w.tinfo, c⟩ :: s.timers }
        | _ => none
    | .addEvent f ok =>
        match s.pc f with
        | .armed c w =>
            let (rt, iom) := s.iom.addEvent c.fd c.fn.event
              (Dispatch.eventContext (some 0) none f) (ok && (s.kernel.fds c.fd).isSome)
            -- the first assertion of `addEvent` comes before `epoll_ctl`
            let calls := if iom.aborted = some .addEvent then s.calls else (s.syscall c).calls
            let s' := { s with iom, calls }
            if rt = 0 then some (s'.setPc f (.parked c w)) else some (s'.finish f w)
        | _ => none
    | .resume f =>
        match s.pc f with
        | .parked c w =>
            if HookState.wakeup f ∈ s.iom.scheduled then
              let s' := { s with
                iom := { s.iom with scheduled := s.iom.scheduled.erase (HookState.wakeup f) }
                timers := s.timers.filter fun t => t.tinfo != w.tinfo }
              if s.tinfo w.tinfo = some true then some (s'.finish f w)
              else some (s'.setPc f (.attempt c w))
            else none
        | _ => none
    | .expire t =>
        if t ∈ s.timers then some { s with timers := s.timers.erase t, due := t :: s.due }
        else none
    | .runCb t =>
        if t ∈ s.due then
          let s' := { s with due := s.due.erase t }
          if s.tinfo t.tinfo = some false then
            some { s' with
              tinfo := Function.update s.tinfo t.tinfo (some true)
              cancelling := t :: s.cancelling }
          else some s'
        else none
    | .cancelEvent t ok =>
        if t ∈ s.cancelling then
          -- `cancelEvent` calls `epoll_ctl` if the event is registered
          let registered := (s.iom.ctx t.call.fd).events.has t.call.fn.event
          some { s with
            iom := (s.iom.cancelEvent t.call.fd t.call.fn.event ok).2
            calls := if registered then (s.syscall t.call).calls else s.calls
            cancelling := s.cancelling.erase t }
        else none
    | .socket f n hooked =>
        if s.pc f = .out ∧ s.kernel.fds n = none then
          some ((s.handOut n).setPc f (if hooked then .opened n else .out))
        else none
    | .getCreate f =>
        match s.pc f with
        | .opened fd =>
            some (s.setPc f (if (s.fdMgr.get fd).isSome then .out else .creating fd))
        | _ => none
    | .create f =>
        match s.pc f with
        | .creating fd =>
            let (fdMgr, kernel) := s.fdMgr.create s.kernel fd
            some { s.setPc f .out with fdMgr, kernel }
        | _ => none
    | .close f fd hooked =>
        if s.pc f = .out then
          some (s.setPc f
            (if hooked && (s.fdMgr.get fd).isSome then .closing fd else .lastClose fd))
        else none
    | .cancelAll f hasIom ok =>
        match s.pc f with
        | .closing fd =>
            some { s.setPc f (.deleting fd) with
              iom := if hasIom then (s.iom.cancelAll fd ok).2 else s.iom }
        | _ => none
    | .del f =>
        match s.pc f with
        | .deleting fd => some { s.setPc f (.lastClose fd) with fdMgr := s.fdMgr.del fd }
        | _ => none
    | .closeFd f =>
        match s.pc f with
        | .lastClose fd => some ((s.closeFd fd).setPc f .out)
        | _ => none
    | .setUserNonblock fd v =>
        some { s with fdMgr := s.fdMgr.modify fd fun c => { c with userNonblock := v } }
    | .setTimeout fd type v =>
        some { s with fdMgr := s.fdMgr.modify fd fun c => c.setTimeout type v }
    | .io a =>
        match dispatchStep s.iom a with
        | none => none
        | some iom => some { s with iom }

def hookSys : TSys HookState HookAct where
  init := fun s => s = .start
  step := hookStep

/-- The invocation of `do_io` that may still make a system call. A fiber whose timer has
set `cancelled` while it waits returns without one. -/
def Pc.pending (tinfo : Nat → Option Bool) : Pc → Option Call
  | .entered c | .got c _ | .plain c | .attempt c _ | .again c _ | .armed c _ => some c
  | .parked c w => if tinfo w.tinfo = some true then none else some c
  | _ => none

def HookState.pending (s : HookState) (f : FiberId) : Option Call := (s.pc f).pending s.tinfo

/-- The invocation, or the callback of its timer, may still make a system call. -/
def HookState.Pending (s : HookState) (c : Call) : Prop :=
  (∃ f, s.pending f = some c) ∨ ∃ t ∈ s.cancelling, t.call = c

/-- The number a step makes the kernel hand out. -/
def HookAct.handsOut : HookAct → Option Nat
  | .socket _ n _ => some n
  | .plainCall _ (.accepted n) => some n
  | .attempt _ (.accepted n) => some n
  | _ => none

/-- A number is handed out only when no invocation of `do_io` on it, and no callback of its
timer, may still make a system call. -/
def FreshNumber (s : HookState) (a : HookAct) : Prop :=
  ∀ n, a.handsOut = some n → ∀ c, s.Pending c → c.fd ≠ n

/-- Every system call of an invocation of `do_io` was on the description its number named at
entry, or failed because the number was closed. -/
def SameDescription (s : HookState) : Prop :=
  ∀ p ∈ s.calls, p.2 = none ∨ p.2 = p.1

/-! ## What a step does -/

/-- The wait a fiber is in. -/
def Pc.wait : Pc → Option Wait
  | .attempt _ w | .again _ w | .armed _ w | .parked _ w => some w
  | _ => none

/-- The invocation a waiting fiber is in. -/
def Pc.call : Pc → Option Call
  | .attempt c _ | .again c _ | .armed c _ | .parked c _ => some c
  | _ => none

/-- Each wait has a `timer_info` of its own. -/
structure OwnTinfo (s : HookState) : Prop where
  old : ∀ f w, (s.pc f).wait = some w → w.tinfo < s.nextTinfo
  own : ∀ f g w w', (s.pc f).wait = some w → (s.pc g).wait = some w' → w.tinfo = w'.tinfo →
    f = g

/-- A timer whose `timer_info` is alive belongs to the call of a waiting fiber. -/
structure Linked (s : HookState) : Prop where
  old : ∀ t, t ∈ s.timers ∨ t ∈ s.due → t.tinfo < s.nextTinfo
  waits : ∀ t, t ∈ s.timers ∨ t ∈ s.due → s.tinfo t.tinfo ≠ none →
    ∃ f w, (s.pc f).wait = some w ∧ (s.pc f).call = some t.call ∧ w.tinfo = t.tinfo

/-- A waiting call is pending until `cancelled` is set. -/
theorem Pc.pending_of_wait {tinfo : Nat → Option Bool} {p : Pc} {w : Wait} {c : Call}
    (hw : p.wait = some w) (hc : p.call = some c) (ht : tinfo w.tinfo = some false) :
    p.pending tinfo = some c := by
  cases p with
  | attempt c' w' | again c' w' | armed c' w' => exact hc
  | parked c' w' =>
      cases hw
      cases hc
      simp [Pc.pending, ht]
  | _ => cases hw

/-- A callback that sets `cancelled` does so for a pending call. -/
theorem Linked.pending {s : HookState} (h : Linked s) {t : IoTimer} (hdue : t ∈ s.due)
    (ht : s.tinfo t.tinfo = some false) : s.Pending t.call := by
  obtain ⟨f, w, hw, hc, heq⟩ := h.waits t (.inr hdue) (by rw [ht]; exact Option.some_ne_none _)
  exact .inl ⟨f, Pc.pending_of_wait hw hc (by rw [heq]; exact ht)⟩

/-- Only the `timer_info` of its own wait decides whether a call is pending. -/
theorem Pc.pending_congr {p : Pc} {tinfo tinfo' : Nat → Option Bool}
    (h : ∀ w, p.wait = some w → tinfo w.tinfo = some true → tinfo' w.tinfo = some true)
    {c : Call} (hc : p.pending tinfo' = some c) : p.pending tinfo = some c := by
  cases p with
  | parked c' w =>
      simp only [Pc.pending] at hc ⊢
      by_cases ht : tinfo w.tinfo = some true
      · rw [if_pos (h w rfl ht)] at hc
        cases hc
      · rw [if_neg ht]
        split at hc
        · cases hc
        · exact hc
  | _ => exact hc

/-- The summary of a step that the invariant needs. -/
structure Effect (s s' : HookState) (a : HookAct) : Prop where
  fds : (∀ m, s'.kernel.fds m = none ∨ s'.kernel.fds m = s.kernel.fds m) ∨
    ∃ n, a.handsOut = some n ∧ ∀ m, m ≠ n → s'.kernel.fds m = s.kernel.fds m
  calls : s'.calls = s.calls ∨ ∃ c, s.Pending c ∧
    s'.calls = (c.entry, s.kernel.fds c.fd) :: s.calls
  pending : ∀ c, s'.Pending c → s.Pending c ∨ c.entry = s'.kernel.fds c.fd

theorem sameDescription_of_effect {s s' : HookState} {a : HookAct}
    (hagree : ∀ c, s.Pending c → s.kernel.fds c.fd = none ∨ s.kernel.fds c.fd = c.entry)
    (hsafe : SameDescription s) (he : Effect s s' a) : SameDescription s' := by
  intro p hp
  rcases he.calls with h | ⟨c, hc, h⟩
  · rw [h] at hp
    exact hsafe p hp
  · rw [h, List.mem_cons] at hp
    rcases hp with rfl | hp
    · exact hagree c hc
    · exact hsafe p hp

theorem agree_of_effect {s s' : HookState} {a : HookAct}
    (hagree : ∀ c, s.Pending c → s.kernel.fds c.fd = none ∨ s.kernel.fds c.fd = c.entry)
    (hg : FreshNumber s a) (he : Effect s s' a) (c : Call) (hc : s'.Pending c) :
    s'.kernel.fds c.fd = none ∨ s'.kernel.fds c.fd = c.entry := by
  rcases he.pending c hc with hold | hentry
  · have hc := hagree c hold
    rcases he.fds with hclose | ⟨n, hn, hsame⟩
    · rcases hclose c.fd with h | h
      · exact .inl h
      · rw [h]
        exact hc
    · -- the number handed out is not the one this invocation works on
      rw [hsame c.fd (hg n hn c hold)]
      exact hc
  · exact .inr hentry.symm

/-- Moving one fiber, with the `timer_info` of the others as it was. -/
theorem pending_move {s s' : HookState} {f : FiberId} {p : Pc}
    (hpc : s'.pc = Function.update s.pc f p) (hcan : s'.cancelling = s.cancelling)
    (htinfo : ∀ g w, g ≠ f → (s.pc g).wait = some w → s.tinfo w.tinfo = some true →
      s'.tinfo w.tinfo = some true)
    (hf : ∀ c, p.pending s'.tinfo = some c →
      s.pending f = some c ∨ c.entry = s'.kernel.fds c.fd)
    (c : Call) (hc : s'.Pending c) : s.Pending c ∨ c.entry = s'.kernel.fds c.fd := by
  rcases hc with ⟨g, hc⟩ | hc
  · unfold HookState.pending at hc
    rw [hpc] at hc
    by_cases hgf : g = f
    · subst hgf
      rw [Function.update_self] at hc
      exact (hf c hc).imp_left fun h => .inl ⟨g, h⟩
    · rw [Function.update_of_ne hgf] at hc
      exact .inl (.inl ⟨g, Pc.pending_congr (fun w hw => htinfo g w hgf hw) hc⟩)
  · rw [hcan] at hc
    exact .inl (.inr hc)

theorem Effect.of_move {s s' : HookState} {a : HookAct} {f : FiberId} {p : Pc}
    (hpc : s'.pc = Function.update s.pc f p) (hcan : s'.cancelling = s.cancelling)
    (hfds : s'.kernel.fds = s.kernel.fds)
    (hcalls : s'.calls = s.calls ∨ ∃ c, s.pending f = some c ∧
      s'.calls = (c.entry, s.kernel.fds c.fd) :: s.calls)
    (htinfo : ∀ g w, g ≠ f → (s.pc g).wait = some w → s.tinfo w.tinfo = some true →
      s'.tinfo w.tinfo = some true)
    (hf : ∀ c, p.pending s'.tinfo = some c →
      s.pending f = some c ∨ c.entry = s.kernel.fds c.fd) : Effect s s' a where
  fds := .inl fun m => .inr (by rw [hfds])
  calls := hcalls.imp_right fun ⟨c, hc, h⟩ => ⟨c, .inl ⟨f, hc⟩, h⟩
  pending := pending_move hpc hcan htinfo (by rw [hfds]; exact hf)

theorem pending_still {s s' : HookState} (hpc : s'.pc = s.pc)
    (htinfo : ∀ t, s.tinfo t = some true → s'.tinfo t = some true) {f : FiberId} {c : Call}
    (hc : s'.pending f = some c) : s.pending f = some c := by
  unfold HookState.pending at hc
  rw [hpc] at hc
  exact Pc.pending_congr (fun w _ => htinfo w.tinfo) hc

/-- A step that leaves the fibers where they are. -/
theorem Effect.of_still {s s' : HookState} {a : HookAct} (hpc : s'.pc = s.pc)
    (hcan : s'.cancelling = s.cancelling)
    (hfds : s'.kernel.fds = s.kernel.fds) (hcalls : s'.calls = s.calls)
    (htinfo : ∀ t, s.tinfo t = some true → s'.tinfo t = some true) : Effect s s' a where
  fds := .inl fun m => .inr (by rw [hfds])
  calls := .inl hcalls
  pending := by
    intro c hc
    rcases hc with ⟨f, hc⟩ | hc
    · exact .inl (.inl ⟨f, pending_still hpc htinfo hc⟩)
    · rw [hcan] at hc
      exact .inl (.inr hc)

/-- The destruction of a `timer_info` is not seen by other fibers. -/
theorem OwnTinfo.update_other {s : HookState} (h : OwnTinfo s) {f : FiberId} {w : Wait}
    {v : Option Bool} (hf : (s.pc f).wait = some w) (g : FiberId) (w' : Wait) (hgf : g ≠ f)
    (hg : (s.pc g).wait = some w') (ht : s.tinfo w'.tinfo = some true) :
    Function.update s.tinfo w.tinfo v w'.tinfo = some true := by
  have hne : w'.tinfo ≠ w.tinfo := fun he => hgf (h.own g f w' w hg hf he)
  rw [Function.update_of_ne hne]
  exact ht

theorem plainCall_effect {s s' : HookState} {f : FiberId} {r : IoResult}
    (hs : hookStep s (.plainCall f r) = some s') : Effect s s' (.plainCall f r) := by
  simp only [hookStep] at hs
  split at hs
  · cases hs
  · split at hs
    · rename_i c hpc
      have hc : s.pending f = some c := by simp [HookState.pending, hpc, Pc.pending]
      split at hs
      · split at hs
        · rename_i n _
          cases hs
          refine ⟨.inr ⟨n, rfl, fun m hm => Kernel.create_fds_of_ne _ _ hm⟩,
            .inr ⟨c, .inl ⟨f, hc⟩, rfl⟩, pending_move rfl rfl (fun _ _ _ _ h => h) ?_⟩
          simp [Pc.pending]
        · cases hs
          exact .of_move rfl rfl rfl (.inr ⟨c, hc, rfl⟩) (fun _ _ _ _ h => h) (by simp [Pc.pending])
      · cases hs
    · cases hs

theorem attempt_effect {s s' : HookState} {f : FiberId} {r : IoResult} (hown : OwnTinfo s)
    (hs : hookStep s (.attempt f r) = some s') : Effect s s' (.attempt f r) := by
  simp only [hookStep] at hs
  split at hs
  · cases hs
  · split at hs
    · rename_i c w hpc
      have hc : s.pending f = some c := by simp [HookState.pending, hpc, Pc.pending]
      have hw : (s.pc f).wait = some w := by simp [hpc, Pc.wait]
      split at hs
      · cases r with
        | done =>
            cases hs
            exact .of_move rfl rfl rfl (.inr ⟨c, hc, rfl⟩) (hown.update_other hw)
              (by simp [Pc.pending])
        | EINTR =>
            cases hs
            exact ⟨.inl fun m => .inr rfl, .inr ⟨c, .inl ⟨f, hc⟩, rfl⟩, fun c' h => .inl h⟩
        | EAGAIN =>
            cases hs
            refine .of_move rfl rfl rfl (.inr ⟨c, hc, rfl⟩) (fun _ _ _ _ h => h) ?_
            intro c' h
            exact .inl (hc.trans h)
        | accepted n =>
            cases hs
            refine ⟨.inr ⟨n, rfl, fun m hm => Kernel.create_fds_of_ne _ _ hm⟩,
              .inr ⟨c, .inl ⟨f, hc⟩, rfl⟩, pending_move (f := f) (p := .opened n) ?_ rfl
                (hown.update_other hw) ?_⟩
            · simp [HookState.setPc, HookState.handOut, HookState.finish, HookState.syscall]
            · simp [Pc.pending]
      · cases hs
    · cases hs

theorem addEvent_effect {s s' : HookState} {f : FiberId} {ok : Bool} (hown : OwnTinfo s)
    (hs : hookStep s (.addEvent f ok) = some s') : Effect s s' (.addEvent f ok) := by
  simp only [hookStep] at hs
  split at hs
  · cases hs
  · split at hs
    · rename_i c w hpc
      have hc : s.pending f = some c := by simp [HookState.pending, hpc, Pc.pending]
      have hw : (s.pc f).wait = some w := by simp [hpc, Pc.wait]
      generalize s.iom.addEvent c.fd c.fn.event (Dispatch.eventContext (some 0) none f)
        (ok && (s.kernel.fds c.fd).isSome) = r at hs
      obtain ⟨rt, iom⟩ := r
      dsimp only at hs
      -- the record gains the `epoll_ctl` call unless the assertion came first
      have hcalls : (if iom.aborted = some .addEvent then s.calls else (s.syscall c).calls) =
          s.calls ∨ ∃ c', s.pending f = some c' ∧
            (if iom.aborted = some .addEvent then s.calls else (s.syscall c).calls) =
              (c'.entry, s.kernel.fds c'.fd) :: s.calls := by
        split
        · exact .inl rfl
        · exact .inr ⟨c, hc, rfl⟩
      split at hs
      · cases hs
        refine .of_move rfl rfl rfl hcalls (fun _ _ _ _ h => h) ?_
        intro c' h
        simp only [Pc.pending, ite_eq_iff, reduceCtorEq, and_false, false_or] at h
        exact .inl (hc.trans h.2)
      · cases hs
        exact .of_move rfl rfl rfl hcalls (hown.update_other hw) (by simp [Pc.pending])
    · cases hs

theorem resume_effect {s s' : HookState} {f : FiberId} (hown : OwnTinfo s)
    (hs : hookStep s (.resume f) = some s') : Effect s s' (.resume f) := by
  simp only [hookStep] at hs
  split at hs
  · cases hs
  · split at hs
    · rename_i c w hpc
      have hw : (s.pc f).wait = some w := by simp [hpc, Pc.wait]
      split at hs
      · split at hs
        · cases hs
          exact .of_move rfl rfl rfl (.inl rfl) (hown.update_other hw) (by simp [Pc.pending])
        · rename_i hcancelled
          have hc : s.pending f = some c := by
            simp [HookState.pending, hpc, Pc.pending, hcancelled]
          cases hs
          exact .of_move rfl rfl rfl (.inl rfl) (fun _ _ _ _ h => h) fun c' h => .inl (hc.trans h)
      · cases hs
    · cases hs

/-- Every step does no more than `Effect` says. -/
theorem hookStep_effect {s s' : HookState} {a : HookAct} (hown : OwnTinfo s) (hlinked : Linked s)
    (hs : hookStep s a = some s') : Effect s s' a := by
  cases a with
  | plainCall f r => exact plainCall_effect hs
  | attempt f r => exact attempt_effect hown hs
  | addEvent f ok => exact addEvent_effect hown hs
  | resume f => exact resume_effect hown hs
  | enter f fn fd hooked =>
      simp only [hookStep] at hs
      split at hs <;> try cases hs
      split at hs <;> cases hs
      refine .of_move rfl rfl rfl (.inl rfl) (fun _ _ _ _ h => h) ?_
      intro c hc
      right
      cases hooked <;> cases hc <;> rfl
  | get f =>
      simp only [hookStep] at hs
      split at hs <;> try cases hs
      split at hs
      · rename_i c hpc
        -- the call stays pending, or ends here
        have hc : s.pending f = some c := by simp [HookState.pending, hpc, Pc.pending]
        split at hs
        all_goals
          cases hs
          exact .of_move rfl rfl rfl (.inl rfl) (fun _ _ _ _ h => h) fun c' h => .inl (hc.trans h)
      · cases hs
  | check f =>
      simp only [hookStep] at hs
      split at hs <;> try cases hs
      split at hs
      · rename_i c p hpc
        have hc : s.pending f = some c := by simp [HookState.pending, hpc, Pc.pending]
        split at hs
        · cases hs
        · split at hs
          · cases hs
            exact .of_move rfl rfl rfl (.inl rfl) (fun _ _ _ _ h => h) (by simp [Pc.pending])
          · split at hs
            · cases hs
              exact .of_move rfl rfl rfl (.inl rfl) (fun _ _ _ _ h => h)
                fun c' h => .inl (hc.trans h)
            · cases hs
              refine .of_move rfl rfl rfl (.inl rfl) ?_ fun c' h => .inl (hc.trans h)
              -- the new `timer_info` is none of those in use
              intro g w _ hw ht
              show Function.update s.tinfo s.nextTinfo _ w.tinfo = _
              rw [Function.update_of_ne (by have := hown.old g w hw; omega)]
              exact ht
      · cases hs
  | arm f =>
      simp only [hookStep] at hs
      split at hs <;> try cases hs
      split at hs
      · rename_i c w hpc
        have hc : s.pending f = some c := by simp [HookState.pending, hpc, Pc.pending]
        split at hs
        all_goals
          cases hs
          exact .of_move rfl rfl rfl (.inl rfl) (fun _ _ _ _ h => h) fun c' h => .inl (hc.trans h)
      · cases hs
  | expire t =>
      simp only [hookStep] at hs
      split at hs <;> try cases hs
      split at hs <;> cases hs
      exact .of_still rfl rfl rfl rfl fun _ h => h
  | runCb t =>
      simp only [hookStep] at hs
      split at hs <;> try cases hs
      split at hs <;> try cases hs
      rename_i hdue
      split at hs
      · rename_i htinfo
        cases hs
        refine ⟨.inl fun m => .inr rfl, .inl rfl, fun c hc => .inl ?_⟩
        rcases hc with ⟨f, hc⟩ | ⟨t', ht', rfl⟩
        · refine .inl ⟨f, pending_still ?_ (fun k h => ?_) hc⟩
          · rfl
          show Function.update s.tinfo t.tinfo _ k = _
          by_cases hk : k = t.tinfo
          · rw [hk, Function.update_self]
          · rw [Function.update_of_ne hk]
            exact h
        · -- the call of the timer was pending before
          rcases List.mem_cons.mp ht' with rfl | ht'
          · exact hlinked.pending hdue htinfo
          · exact .inr ⟨t', ht', rfl⟩
      · cases hs
        exact .of_still rfl rfl rfl rfl fun _ h => h
  | cancelEvent t ok =>
      simp only [hookStep] at hs
      split at hs <;> try cases hs
      split at hs <;> cases hs
      rename_i hcan
      refine ⟨.inl fun m => .inr rfl, ?_, fun c hc => .inl ?_⟩
      · dsimp only
        split
        · exact .inr ⟨t.call, .inr ⟨t, hcan, rfl⟩, rfl⟩
        · exact .inl rfl
      · exact hc.imp_right fun ⟨t', ht', hcall⟩ => ⟨t', List.mem_of_mem_erase ht', hcall⟩
  | socket f n hooked =>
      simp only [hookStep] at hs
      split at hs <;> try cases hs
      split at hs <;> cases hs
      refine ⟨.inr ⟨n, rfl, fun m hm => Kernel.create_fds_of_ne _ _ hm⟩, .inl rfl,
        pending_move rfl rfl (fun _ _ _ _ h => h) ?_⟩
      cases hooked <;> simp [Pc.pending]
  | getCreate f =>
      simp only [hookStep] at hs
      split at hs <;> try cases hs
      split at hs <;> cases hs
      refine .of_move rfl rfl rfl (.inl rfl) (fun _ _ _ _ h => h) ?_
      split <;> simp [Pc.pending]
  | create f =>
      simp only [hookStep] at hs
      split at hs <;> try cases hs
      split at hs <;> cases hs
      exact .of_move rfl rfl (FdCtx.new_fds _ _) (.inl rfl) (fun _ _ _ _ h => h)
        (by simp [Pc.pending])
  | close f fd hooked =>
      simp only [hookStep] at hs
      split at hs <;> try cases hs
      split at hs <;> cases hs
      refine .of_move rfl rfl rfl (.inl rfl) (fun _ _ _ _ h => h) ?_
      split <;> simp [Pc.pending]
  | cancelAll f hasIom ok =>
      simp only [hookStep] at hs
      split at hs <;> try cases hs
      split at hs <;> cases hs
      exact .of_move rfl rfl rfl (.inl rfl) (fun _ _ _ _ h => h) (by simp [Pc.pending])
  | del f =>
      simp only [hookStep] at hs
      split at hs <;> try cases hs
      split at hs <;> cases hs
      exact .of_move rfl rfl rfl (.inl rfl) (fun _ _ _ _ h => h) (by simp [Pc.pending])
  | closeFd f =>
      simp only [hookStep] at hs
      split at hs <;> try cases hs
      split at hs <;> cases hs
      exact ⟨.inl fun m => Kernel.close_fds _ _ m, .inl rfl,
        pending_move rfl rfl (fun _ _ _ _ h => h) (by simp [Pc.pending])⟩
  | setUserNonblock fd v =>
      simp only [hookStep] at hs
      split at hs <;> cases hs
      exact .of_still rfl rfl rfl rfl fun _ h => h
  | setTimeout fd type v =>
      simp only [hookStep] at hs
      split at hs <;> cases hs
      exact .of_still rfl rfl rfl rfl fun _ h => h
  | io a =>
      simp only [hookStep] at hs
      split at hs <;> try cases hs
      split at hs <;> cases hs
      exact .of_still rfl rfl rfl rfl fun _ h => h

/-! ## Runs -/

/-- At most one fiber moves, and its wait is the one it had, none, or a new one. -/
structure Waits (s s' : HookState) (f : FiberId) : Prop where
  others : ∀ g, g ≠ f → s'.pc g = s.pc g
  next : s.nextTinfo ≤ s'.nextTinfo
  wait : ∀ w, (s'.pc f).wait = some w → (s.pc f).wait = some w ∨
    (w.tinfo = s.nextTinfo ∧ s.nextTinfo < s'.nextTinfo)

theorem Waits.of_still {s s' : HookState} (hpc : s'.pc = s.pc)
    (hnext : s'.nextTinfo = s.nextTinfo) : Waits s s' 0 where
  others := fun g _ => by rw [hpc]
  next := hnext.ge
  wait := fun w h => .inl (hpc ▸ h)

theorem Waits.of_move {s s' : HookState} {f : FiberId} {p : Pc}
    (hpc : s'.pc = Function.update s.pc f p) (hnext : s'.nextTinfo = s.nextTinfo)
    (hp : p.wait = none ∨ p.wait = (s.pc f).wait) : Waits s s' f where
  others := fun g hg => by rw [hpc, Function.update_of_ne hg]
  next := hnext.ge
  wait := by
    intro w hw
    rw [hpc, Function.update_self] at hw
    rcases hp with hp | hp
    · rw [hp] at hw
      cases hw
    · exact .inl (hp ▸ hw)

theorem hookStep_waits {s s' : HookState} {a : HookAct} (hs : hookStep s a = some s') :
    ∃ f, Waits s s' f := by
  by_cases hcheck : ∃ f, a = .check f
  · obtain ⟨f, rfl⟩ := hcheck
    refine ⟨f, ?_⟩
    simp only [hookStep] at hs
    split at hs <;> try cases hs
    split at hs <;> try cases hs
    rename_i c p hpc
    split at hs <;> try cases hs
    split at hs
    · cases hs
      exact .of_move rfl rfl (.inl rfl)
    · split at hs
      · cases hs
        exact .of_move rfl rfl (.inl rfl)
      · -- the only place that makes a `timer_info`
        cases hs
        refine ⟨fun g hg => Function.update_of_ne hg _ _, Nat.le_succ _, ?_⟩
        intro w hw
        simp only [HookState.setPc, Function.update_self, Pc.wait, Option.some.injEq] at hw
        exact .inr ⟨hw ▸ rfl, Nat.lt_succ_self _⟩
  · simp only [hookStep] at hs
    split at hs
    · cases hs
    · -- elsewhere a fiber keeps its wait or drops it
      cases a <;> simp only at hs <;> (repeat' split at hs) <;> try cases hs
      all_goals first
        | exact ⟨_, .of_still rfl rfl⟩
        | exact ⟨_, .of_move rfl rfl (.inl rfl)⟩
        | exact ⟨_, .of_move rfl rfl (.inr (by simp [*, Pc.wait]))⟩
        | exact ⟨_, .of_move (Function.update_idem _ _ _) rfl (.inl rfl)⟩
        | exact absurd ⟨_, rfl⟩ hcheck

theorem hookStep_ownTinfo {s s' : HookState} {a : HookAct} (h : OwnTinfo s)
    (hs : hookStep s a = some s') : OwnTinfo s' := by
  obtain ⟨f, hwaits⟩ := hookStep_waits hs
  have hold : ∀ g w, (s'.pc g).wait = some w → (s.pc g).wait = some w ∨
      (g = f ∧ w.tinfo = s.nextTinfo ∧ s.nextTinfo < s'.nextTinfo) := by
    intro g w hw
    by_cases hgf : g = f
    · subst hgf
      exact (hwaits.wait w hw).imp_right fun h => ⟨rfl, h⟩
    · rw [hwaits.others g hgf] at hw
      exact .inl hw
  constructor
  · intro g w hw
    have := hwaits.next
    rcases hold g w hw with h1 | ⟨-, h1, h2⟩
    · have := h.old g w h1
      omega
    · omega
  · intro g g' w w' hw hw' heq
    rcases hold g w hw with h1 | ⟨h1, h2, -⟩ <;> rcases hold g' w' hw' with h1' | ⟨h1', h2', -⟩
    · exact h.own g g' w w' h1 h1' heq
    · have := h.old g w h1
      omega
    · have := h.old g' w' h1'
      omega
    · exact h1.trans h1'.symm

/-- What a step does to the waits and their timers: a timer comes with the wait of a fiber, and
a wait ends with its `timer_info`. -/
structure Keeps (s s' : HookState) : Prop where
  timers : ∀ t, t ∈ s'.timers ∨ t ∈ s'.due → (t ∈ s.timers ∨ t ∈ s.due) ∨
    ∃ f w, (s'.pc f).wait = some w ∧ (s'.pc f).call = some t.call ∧ w.tinfo = t.tinfo
  waits : ∀ f w c, (s.pc f).wait = some w → (s.pc f).call = some c →
    ((s'.pc f).wait = some w ∧ (s'.pc f).call = some c) ∨ s'.tinfo w.tinfo = none
  tinfo : ∀ k, s'.tinfo k ≠ none → s.tinfo k ≠ none ∨ s.nextTinfo ≤ k
  next : s.nextTinfo ≤ s'.nextTinfo

theorem Keeps.of_still {s s' : HookState} (hpc : s'.pc = s.pc)
    (htimers : ∀ t, t ∈ s'.timers ∨ t ∈ s'.due → t ∈ s.timers ∨ t ∈ s.due)
    (htinfo : ∀ k, s'.tinfo k ≠ none → s.tinfo k ≠ none)
    (hnext : s'.nextTinfo = s.nextTinfo) : Keeps s s' where
  timers := fun t ht => .inl (htimers t ht)
  waits := fun _ _ _ hw hc => .inl ⟨hpc ▸ hw, hpc ▸ hc⟩
  tinfo := fun k hk => .inl (htinfo k hk)
  next := hnext.ge

/-- One fiber moves outside a wait, or inside it. -/
theorem Keeps.of_move {s s' : HookState} {f : FiberId} {p : Pc}
    (hpc : s'.pc = Function.update s.pc f p)
    (hp : (s.pc f).wait = none ∨ p.wait = (s.pc f).wait ∧ p.call = (s.pc f).call)
    (htimers : ∀ t, t ∈ s'.timers ∨ t ∈ s'.due → t ∈ s.timers ∨ t ∈ s.due)
    (htinfo : s'.tinfo = s.tinfo) (hnext : s'.nextTinfo = s.nextTinfo) : Keeps s s' where
  timers := fun t ht => .inl (htimers t ht)
  waits := by
    intro g w c hw hc
    rw [hpc]
    by_cases hg : g = f
    · subst hg
      rw [Function.update_self]
      rcases hp with hp | ⟨hwait, hcall⟩
      · rw [hp] at hw
        cases hw
      · exact .inl ⟨hwait.trans hw, hcall.trans hc⟩
    · rw [Function.update_of_ne hg]
      exact .inl ⟨hw, hc⟩
  tinfo := fun k hk => .inl (htinfo ▸ hk)
  next := hnext.ge

/-- A wait ends. -/
theorem Keeps.of_finish {s s' : HookState} {f : FiberId} {p : Pc} {w : Wait}
    (hpc : s'.pc = Function.update s.pc f p) (hw : (s.pc f).wait = some w)
    (htimers : ∀ t, t ∈ s'.timers ∨ t ∈ s'.due → t ∈ s.timers ∨ t ∈ s.due)
    (htinfo : s'.tinfo = Function.update s.tinfo w.tinfo none)
    (hnext : s'.nextTinfo = s.nextTinfo) : Keeps s s' where
  timers := fun t ht => .inl (htimers t ht)
  waits := by
    intro g w' c hw' hc
    by_cases hg : g = f
    · subst hg
      rw [hw] at hw'
      cases hw'
      rw [htinfo, Function.update_self]
      exact .inr rfl
    · rw [hpc, Function.update_of_ne hg]
      exact .inl ⟨hw', hc⟩
  tinfo := by
    intro k hk
    rw [htinfo] at hk
    by_cases hkw : k = w.tinfo
    · rw [hkw, Function.update_self] at hk
      exact absurd rfl hk
    · rw [Function.update_of_ne hkw] at hk
      exact .inl hk
  next := hnext.ge

theorem mem_filter_or {p : IoTimer → Bool} {l due : List IoTimer} (t : IoTimer)
    (h : t ∈ l.filter p ∨ t ∈ due) : t ∈ l ∨ t ∈ due :=
  h.imp_left List.mem_of_mem_filter

theorem hookStep_keeps {s s' : HookState} {a : HookAct} (hs : hookStep s a = some s') :
    Keeps s s' := by
  cases a with
  | check f =>
      simp only [hookStep] at hs
      split at hs <;> try cases hs
      split at hs <;> try cases hs
      rename_i c p hpc
      have hout : (s.pc f).wait = none := by simp [hpc, Pc.wait]
      split at hs <;> try cases hs
      split at hs
      · cases hs
        exact .of_move rfl (.inl hout) (fun _ h => h) rfl rfl
      · split at hs
        · cases hs
          exact .of_move rfl (.inl hout) (fun _ h => h) rfl rfl
        · cases hs
          refine ⟨fun _ h => .inl h, fun g w c' hw hc => .inl ?_, fun k hk => ?_, Nat.le_succ _⟩
          · have hg : g ≠ f := by
              rintro rfl
              rw [hout] at hw
              cases hw
            simpa [HookState.setPc, hg] using ⟨hw, hc⟩
          · by_cases hnew : k = s.nextTinfo
            · exact .inr hnew.ge
            · exact .inl (by simpa [hnew] using hk)
  | arm f =>
      simp only [hookStep] at hs
      split at hs <;> try cases hs
      split at hs <;> try cases hs
      rename_i c w hpc
      have hsame : (Pc.armed c w).wait = (s.pc f).wait ∧ (Pc.armed c w).call = (s.pc f).call := by
        simp [hpc, Pc.wait, Pc.call]
      split at hs
      · cases hs
        exact .of_move rfl (.inr hsame) (fun _ h => h) rfl rfl
      · -- the only place that makes a timer
        cases hs
        have hmove : Keeps s (s.setPc f (.armed c w)) :=
          .of_move rfl (.inr hsame) (fun _ h => h) rfl rfl
        refine ⟨fun t ht => ?_, hmove.waits, hmove.tinfo, hmove.next⟩
        rcases ht with ht | ht
        · rcases List.mem_cons.mp ht with rfl | ht
          · exact .inr ⟨f, w, by simp [HookState.setPc, Pc.wait, Pc.call]⟩
          · exact .inl (.inl ht)
        · exact .inl (.inr ht)
  | attempt f r =>
      simp only [hookStep] at hs
      split at hs <;> try cases hs
      split at hs <;> try cases hs
      rename_i c w hpc
      have hw : (s.pc f).wait = some w := by simp [hpc, Pc.wait]
      split at hs <;> try cases hs
      cases r with
      | done =>
          cases hs
          exact .of_finish rfl hw mem_filter_or rfl rfl
      | EINTR =>
          cases hs
          exact .of_still rfl (fun _ h => h) (fun _ h => h) rfl
      | EAGAIN =>
          cases hs
          exact .of_move rfl (.inr (by simp [hpc, Pc.wait, Pc.call])) (fun _ h => h) rfl rfl
      | accepted n =>
          cases hs
          exact .of_finish (Function.update_idem _ _ _) hw mem_filter_or rfl rfl
  | addEvent f ok =>
      simp only [hookStep] at hs
      split at hs <;> try cases hs
      split at hs <;> try cases hs
      rename_i c w hpc
      have hw : (s.pc f).wait = some w := by simp [hpc, Pc.wait]
      split at hs
      · cases hs
        exact .of_move rfl (.inr (by simp [hpc, Pc.wait, Pc.call])) (fun _ h => h) rfl rfl
      · cases hs
        exact .of_finish rfl hw mem_filter_or rfl rfl
  | resume f =>
      simp only [hookStep] at hs
      split at hs <;> try cases hs
      split at hs <;> try cases hs
      rename_i c w hpc
      have hw : (s.pc f).wait = some w := by simp [hpc, Pc.wait]
      split at hs <;> try cases hs
      split at hs
      · cases hs
        exact .of_finish rfl hw (fun t h => mem_filter_or t (h.imp_left List.mem_of_mem_filter))
          rfl rfl
      · cases hs
        exact .of_move rfl (.inr (by simp [hpc, Pc.wait, Pc.call])) mem_filter_or rfl rfl
  | expire t =>
      simp only [hookStep] at hs
      split at hs <;> try cases hs
      split at hs <;> cases hs
      rename_i hmem
      refine .of_still rfl (fun t' ht' => ?_) (fun _ h => h) rfl
      rcases ht' with ht' | ht'
      · exact .inl (List.mem_of_mem_erase ht')
      · rcases List.mem_cons.mp ht' with rfl | ht'
        · exact .inl hmem
        · exact .inr ht'
  | runCb t =>
      simp only [hookStep] at hs
      split at hs <;> try cases hs
      split at hs <;> try cases hs
      have herase : ∀ t', t' ∈ s.timers ∨ t' ∈ s.due.erase t → t' ∈ s.timers ∨ t' ∈ s.due :=
        fun _ h => h.imp_right List.mem_of_mem_erase
      split at hs
      · rename_i htinfo
        cases hs
        refine .of_still rfl herase (fun k hk => ?_) rfl
        by_cases hkt : k = t.tinfo
        · rw [hkt, htinfo]
          exact Option.some_ne_none _
        · simpa [hkt] using hk
      · cases hs
        exact .of_still rfl herase (fun _ h => h) rfl
  | _ =>
      -- elsewhere a fiber that does not wait moves, or none
      simp only [hookStep] at hs
      split at hs <;> try cases hs
      all_goals (repeat' split at hs) <;> try cases hs
      all_goals first
        | exact .of_still rfl (fun _ h => h) (fun _ h => h) rfl
        | exact .of_move rfl (.inl (by simp [*, Pc.wait])) (fun _ h => h) rfl rfl

theorem hookStep_linked {s s' : HookState} {a : HookAct} (h : Linked s) (hown : OwnTinfo s')
    (hs : hookStep s a = some s') : Linked s' := by
  have hkeeps := hookStep_keeps hs
  constructor
  · intro t ht
    rcases hkeeps.timers t ht with hold | ⟨f, w, hw, -, heq⟩
    · exact (h.old t hold).trans_le hkeeps.next
    · exact heq ▸ hown.old f w hw
  · intro t ht halive
    rcases hkeeps.timers t ht with hold | hnew
    · have hbefore : s.tinfo t.tinfo ≠ none :=
        (hkeeps.tinfo _ halive).resolve_right (Nat.not_le.mpr (h.old t hold))
      obtain ⟨f, w, hw, hc, heq⟩ := h.waits t hold hbefore
      rcases hkeeps.waits f w t.call hw hc with hsame | hgone
      · exact ⟨f, w, hsame.1, hsame.2, heq⟩
      · rw [heq] at hgone
        exact absurd hgone halive
    · exact hnew

/-- A pending invocation's number is closed or names what it named at entry. -/
structure HookInv (s : HookState) : Prop where
  own : OwnTinfo s
  linked : Linked s
  agree : ∀ c, s.Pending c → s.kernel.fds c.fd = none ∨ s.kernel.fds c.fd = c.entry
  same : SameDescription s

theorem hook_inductive : hookSys.Inductive FreshNumber HookInv where
  init := by
    rintro s rfl
    exact ⟨⟨by simp [HookState.start, Pc.wait], by simp [HookState.start, Pc.wait]⟩,
      ⟨by simp [HookState.start], by simp [HookState.start]⟩,
      by simp [HookState.Pending, HookState.pending, HookState.start, Pc.pending],
      by simp [SameDescription, HookState.start]⟩
  step := by
    intro s a s' h hg hs
    have he := hookStep_effect h.own h.linked hs
    have hown := hookStep_ownTinfo h.own hs
    exact ⟨hown, hookStep_linked h.linked hown hs, agree_of_effect h.agree hg he,
      sameDescription_of_effect h.agree h.same he⟩

/-- Fiber 1 reads from socket 5 with a timeout of 100 ms. It parks, the event comes, it finds
nothing and parks again, the timer expires and its callback cancels the event. -/
def timedReadTrace : List HookAct :=
  [.getCreate 1, .create 1, .setTimeout 5 .SO_RCVTIMEO 100, .enter 1 .read 5 true, .get 1,
    .check 1, .attempt 1 .EAGAIN, .arm 1, .addEvent 1 true,
    .io (.epollWait 0 [⟨5, ⟨true, false⟩, false⟩]), .io (.handle 0 true), .resume 1,
    .attempt 1 .EAGAIN, .arm 1, .addEvent 1 true, .expire ⟨0, ⟨.read, 5, some 5⟩⟩,
    .runCb ⟨0, ⟨.read, 5, some 5⟩⟩, .cancelEvent ⟨0, ⟨.read, 5, some 5⟩⟩ true, .resume 1]

/-- Fiber 1 makes socket 5 and parks in `read`; fiber 2 closes 5, fiber 3 gets the number
for a new socket, and fiber 1 runs on. -/
def reuseTrace : List HookAct :=
  [.socket 1 5 true, .getCreate 1, .create 1, .enter 1 .read 5 true, .get 1, .check 1,
    .attempt 1 .EAGAIN, .arm 1, .addEvent 1 true, .close 2 5 true, .cancelAll 2 true true,
    .del 2, .closeFd 2, .socket 3 5 true, .resume 1, .attempt 1 .done]

end Gxh.Hook
