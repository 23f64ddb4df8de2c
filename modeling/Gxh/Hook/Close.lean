import Gxh.IOManager.Mirror
import Gxh.Hook.FdManager

/-!
# `close` and the registrations of a descriptor

Several `IOManager`s run side by side, each with its own table of contexts and its own epoll
instance, while descriptor numbers and `FdMgr` are shared. A worker registers in the table of
its own `IOManager`; the hooked `close` cancels through `IOManager::GetThis()`, the one of the
thread that happens to close, and closes the descriptor only after that.

* `Process` is the state, with the operations of `Mirror` for each `IOManager`. A report that
  is stale changes nothing or ends the process, so it is left out here.
* `close` is two steps, up to the end of `cancelAll` and from there on.
* `CloseOk` is the condition: whatever is registered for the descriptor is registered with the
  closing thread's own `IOManager`, and nobody registers it again before `close_f`.
-/

namespace Gxh.Hook

open IOManager

/-- A thread as `close` sees it: `IOManager::GetThis()` and `t_hook_enable`. -/
structure Caller where
  iom : Option Nat
  hooked : Bool
  deriving DecidableEq, Repr

/-- A call of `close` between `cancelAll` and `close_f`. -/
structure Closing where
  fd : Nat
  /-- `ctx` is set, so that `FdMgr::del` follows -/
  found : Bool
  /-- The histories the call should lead to, which no function of the source reads. -/
  owed : Nat → Event → List Record

/-- The descriptors, the contexts of `FdMgr`, the `IOManager`s by number, and the calls of
`close` by thread. -/
structure Process where
  kernel : Kernel
  fdMgr : FdManager
  manager : Nat → Dispatch
  closing : Nat → Option Closing

inductive CloseAct
  /-- `socket` or `accept` returns the number `fd` -/
  | socket (fd : Nat) (hooked : Bool)
  /-- a worker of one `IOManager` -/
  | io (i : Nat) (a : SoloAct)
  | closeBegin (thread : Nat) (caller : Caller) (fd : Nat) (ok : Bool)
  | closeEnd (thread : Nat)
  deriving DecidableEq, Repr

/-- What the history of an event should be after it is cancelled: the task of a registration
is scheduled, once. -/
def owed (d : Dispatch) (fd : Nat) (e : Event) : List Record :=
  match d.registered fd e with
  | none => history d.log fd e
  | some x => .scheduled x.scheduler x.task :: history d.log fd e

namespace Process

/-- The descriptors below 5 are open. -/
def start : Process where
  kernel := { fds := fun n => if n < 5 then some n else none
              desc := fun _ => ⟨false, false⟩
              next := 5 }
  fdMgr := .empty
  manager := fun _ => .start
  closing := fun _ => none

/-- `socket`, with `FdMgr::get(fd, true)` on a thread with the hook. -/
def socket (s : Process) (fd : Nat) (hooked : Bool) : Process :=
  let k := s.kernel.create fd ⟨true, false⟩
  if hooked && !(s.fdMgr.get fd).isSome then
    { s with kernel := (s.fdMgr.create k fd).2, fdMgr := (s.fdMgr.create k fd).1 }
  else { s with kernel := k }

/-- An event is added by a worker of the `IOManager` itself, and the kernel refuses a number
that is not open. -/
def mayAct (s : Process) (i : Nat) : SoloAct → Bool
  | .addEvent fd _ scheduler _ _ ok =>
      scheduler == i && (!ok || (s.kernel.fds fd).isSome)
  | _ => true

/-- `iom->cancelAll(fd)`, if there is an `iom`. -/
def cancelAll (s : Process) (iom : Option Nat) (fd : Nat) (ok : Bool) : Process :=
  match iom with
  | none => s
  | some i => { s with manager := Function.update s.manager i ((s.manager i).cancelAll fd ok).2 }

/-- `close` up to `cancelAll`; `ok` is whether the kernel accepts its `epoll_ctl` call. -/
def closeBegin (s : Process) (thread : Nat) (caller : Caller) (fd : Nat) (ok : Bool) : Process :=
  let found := caller.hooked && (s.fdMgr.get fd).isSome
  let call : Closing := ⟨fd, found, fun i e => owed (s.manager i) fd e⟩
  { (if found then s.cancelAll caller.iom fd ok else s) with
    closing := Function.update s.closing thread (some call) }

/-- `close_f`: the kernel also drops the descriptor from every interest list. -/
def close_f (s : Process) (fd : Nat) : Process :=
  { s with
    kernel := s.kernel.close fd
    manager := fun i => (s.manager i).setInterest fd none }

/-- The rest of `close`. -/
def closeEnd (s : Process) (thread : Nat) (call : Closing) : Process :=
  let fdMgr := if call.found then s.fdMgr.del call.fd else s.fdMgr
  { s with fdMgr, closing := Function.update s.closing thread none }.close_f call.fd

end Process

def closeStep (s : Process) : CloseAct → Option Process
  | .socket fd hooked => when (s.kernel.fds fd = none) (s.socket fd hooked)
  | .io i a =>
      if s.mayAct i a then
        (soloStep (s.manager i) a).map fun d => { s with manager := Function.update s.manager i d }
      else none
  | .closeBegin thread caller fd ok =>
      if (s.closing thread).isSome then none else some (s.closeBegin thread caller fd ok)
  | .closeEnd thread => (s.closing thread).map fun call => s.closeEnd thread call

def closeSys : TSys Process CloseAct where
  init := fun s => s = .start
  step := closeStep

/-- Whatever is registered when `close` begins is registered with the closing thread's own
`IOManager`, the hook is enabled there and the socket has its context, and the kernel takes the
removal; and no event is added to a descriptor that is being closed. -/
def CloseOk (s : Process) : CloseAct → Prop
  | .closeBegin _ caller fd ok => ∀ i e, (s.manager i).registered fd e ≠ none →
      caller = ⟨some i, true⟩ ∧ (s.fdMgr.get fd).isSome = true ∧ ok = true
  | .io _ (.addEvent fd _ _ _ _ _) => ∀ thread call, s.closing thread = some call → call.fd ≠ fd
  | _ => True

/-! ## The property -/

/-- The context of the descriptor is as a new one. -/
def EmptyContext (d : Dispatch) (fd : Nat) : Prop :=
  (d.ctx fd).events = .NONE ∧ ∀ e, (d.ctx fd).getEventContext e = .empty

/-- What a call of `close` owes when it returns. -/
structure LeavesNothing (s : Process) (call : Closing) : Prop where
  empty : ∀ i, EmptyContext (s.manager i) call.fd
  woken : ∀ i e, history (s.manager i).log call.fd e = call.owed i e

/-! ## One `IOManager` -/

theorem registered_ne_none {d : Dispatch} {fd : Nat} {e : Event} :
    d.registered fd e ≠ none ↔ (d.ctx fd).events.has e = true := by
  rw [Dispatch.registered_eq]
  split <;> simp_all

theorem owed_of_none {d : Dispatch} {fd : Nat} {e : Event} (h : d.registered fd e = none) :
    owed d fd e = history d.log fd e := by
  unfold owed
  rw [h]

theorem emptyContext_iff {d : Dispatch} (h : DispatchInv d) (fd : Nat) :
    EmptyContext d fd ↔ ∀ e, d.registered fd e = none := by
  constructor
  · rintro ⟨hnone, -⟩ e
    rw [Dispatch.registered_eq, hnone, Mask.has_NONE]
    rfl
  · intro hreg
    refine ⟨Mask.eq_NONE_iff.mpr fun e => ?_, fun e => h.clean fd e (hreg e)⟩
    have hno := mt registered_ne_none.mpr (not_not.mpr (hreg e))
    simpa using hno

section Histories

variable {d : Dispatch} {fd : Nat} {e : Event}

/-- A trigger writes to the history of its own event, and only if that is registered. -/
theorem trigger_history (hlive : d.aborted = none) (fd' : Nat) (e' : Event)
    (hsched : ∀ x, d.registered fd' e' = some x → x.scheduler ≠ none) :
    history (d.trigger fd' e').log fd e =
      if fd = fd' ∧ e = e' then owed d fd e else history d.log fd e := by
  rcases Dispatch.trigger_cases hlive fd' e' with
    ⟨hno, heq⟩ | ⟨c, hyes, -, -, ⟨hnull, -⟩ | ⟨-, heq⟩⟩
  · rw [heq]
    show history d.log fd e = _
    split
    · rename_i hkey
      rw [owed_of_none]
      rw [Dispatch.registered_eq, hkey.1, hkey.2, hno]
      rfl
    · rfl
  · refine absurd hnull (hsched _ ?_)
    rw [Dispatch.registered_eq, if_pos hyes]
  · rw [heq]
    split
    · rename_i hkey
      obtain ⟨rfl, rfl⟩ := hkey
      rw [history_cons_self, owed, Dispatch.registered_eq, if_pos hyes]
    · rename_i hkey
      exact history_cons_of_ne _ _ hkey

/-- Nothing is written for an event that is not registered. -/
theorem trigger_silent (h : d.registered fd e = none) (fd' : Nat) (e' : Event) :
    history (d.trigger fd' e').log fd e = history d.log fd e ∧
      (d.trigger fd' e').registered fd e = none := by
  refine ⟨?_, ?_⟩
  · cases hlive : d.aborted with
    | some site => simp [Dispatch.trigger, hlive]
    | none =>
        rcases Dispatch.trigger_cases hlive fd' e' with
          ⟨-, heq⟩ | ⟨c, hyes, -, -, ⟨-, heq⟩ | ⟨-, heq⟩⟩
        · rw [heq]
          rfl
        · rw [heq]
          rfl
        · rw [heq]
          refine history_cons_of_ne _ _ ?_
          rintro ⟨rfl, rfl⟩
          exact registered_ne_none.mpr hyes h
  · by_contra hreg
    obtain ⟨x, hx⟩ := Option.ne_none_iff_exists'.mp hreg
    rw [(Dispatch.trigger_frame d fd' e').registered fd e x hx] at h
    cases h

theorem triggerMask_silent (h : d.registered fd e = none) (fd' : Nat) (m : Mask) :
    history (d.triggerMask fd' m).log fd e = history d.log fd e := by
  have hread : ∃ d', d' = (if m.has .READ then d.trigger fd' .READ else d) ∧
      history d'.log fd e = history d.log fd e ∧ d'.registered fd e = none := by
    refine ⟨_, rfl, ?_⟩
    split
    · exact trigger_silent h fd' .READ
    · exact ⟨rfl, h⟩
  obtain ⟨d', heq, hlog, hreg⟩ := hread
  have hsplit : d.triggerMask fd' m = if m.has .WRITE then d'.trigger fd' .WRITE else d' := by
    rw [heq]
    rfl
  rw [hsplit, ← hlog]
  split
  · exact (trigger_silent hreg fd' .WRITE).1
  · rfl

/-- Triggering every registered event writes what is owed. -/
theorem triggerMask_owed (hlive : d.aborted = none) (fd : Nat) (e : Event)
    (hsched : ∀ e x, d.registered fd e = some x → x.scheduler ≠ none) :
    history (d.triggerMask fd (d.ctx fd).events).log fd e = owed d fd e := by
  -- the state between the two triggers, in which `WRITE` is as it was
  have hread : ∃ d', d' = (if (d.ctx fd).events.has .READ then d.trigger fd .READ else d) ∧
      d'.aborted = none ∧ d'.registered fd .WRITE = d.registered fd .WRITE ∧
      history d'.log fd .READ = owed d fd .READ ∧
      history d'.log fd .WRITE = history d.log fd .WRITE := by
    refine ⟨_, rfl, ?_⟩
    rcases Dispatch.trigger_cases hlive fd .READ with
      ⟨hno, -⟩ | ⟨c, hyes, hset, -, ⟨hnull, -⟩ | ⟨-, heq⟩⟩
    · rw [hno, owed_of_none (by rw [Dispatch.registered_eq, hno]; rfl)]
      exact ⟨hlive, rfl, rfl, rfl⟩
    · refine absurd hnull (hsched .READ _ ?_)
      rw [Dispatch.registered_eq, if_pos hyes]
    · have hhist : ∀ e, history (d.trigger fd .READ).log fd e =
          if fd = fd ∧ e = .READ then owed d fd e else history d.log fd e :=
        fun e => trigger_history hlive fd .READ (hsched .READ)
      rw [hyes, if_pos rfl, hhist, hhist, if_pos ⟨rfl, rfl⟩, if_neg (by simp)]
      rw [heq]
      refine ⟨hlive, ?_, rfl, rfl⟩
      rw [registered_of_setsSlot (s := d) rfl hset, if_neg (by simp)]
  obtain ⟨d', heq, hlive', hwrite, hhr, hhw⟩ := hread
  have hsplit : d.triggerMask fd (d.ctx fd).events =
      if (d.ctx fd).events.has .WRITE then d'.trigger fd .WRITE else d' := by
    rw [heq]
    rfl
  have howed : owed d' fd .WRITE = owed d fd .WRITE := by
    unfold owed
    rw [hwrite, hhw]
  rw [hsplit]
  split
  · rw [trigger_history hlive' fd .WRITE (by rw [hwrite]; exact hsched .WRITE)]
    cases e with
    | READ => rw [if_neg (by simp), hhr]
    | WRITE => rw [if_pos ⟨rfl, rfl⟩, howed]
  · rename_i hno
    cases e with
    | READ => exact hhr
    | WRITE => rw [hhw, owed_of_none (by rw [Dispatch.registered_eq, if_neg hno])]

end Histories

/-- `cancelAll`, accepted by the kernel: no event is registered any more, and what was
registered is scheduled. -/
theorem cancelAll_accepted {d : Dispatch} (h : MirrorInv d) (fd : Nat) :
    MirrorInv (d.cancelAll fd true).2 ∧
    (∀ e, (d.cancelAll fd true).2.registered fd e = none) ∧
    ∀ e, history (d.cancelAll fd true).2.log fd e = owed d fd e := by
  have hstep : soloStep d (.cancelAll fd true) = some (d.cancelAll fd true).2 := by
    unfold soloStep
    rw [if_neg (by simp [h.live])]
  refine ⟨h.step hstep, ?_⟩
  by_cases hnone : (d.ctx fd).events = .NONE
  · have heq : (d.cancelAll fd true).2 = d := by
      unfold Dispatch.cancelAll
      simp [hnone]
    have hreg : ∀ e, d.registered fd e = none := by
      intro e
      rw [Dispatch.registered_eq, hnone, Mask.has_NONE]
      rfl
    rw [heq]
    exact ⟨hreg, fun e => (owed_of_none (hreg e)).symm⟩
  · rcases h.outcome hstep with ⟨hno, -⟩ | ⟨c, hc, -, hr⟩
    · simp [Dispatch.ctlCall, hnone, SoloAct.ok] at hno
    · simp only [Dispatch.ctlCall, if_neg hnone, Option.some.injEq] at hc
      subst hc
      refine ⟨fun e => ?_, fun e => ?_⟩
      · rw [Dispatch.registered_eq, hr.here, Mask.has_NONE]
        rfl
      · have hctl : epollCtl (d.interest fd) .DEL .NONE true = some none := by
          rw [h.kernel, entryOf, if_neg hnone]
          rfl
        have heq : (d.cancelAll fd true).2.log =
            ((d.setInterest fd none).triggerMask fd (d.ctx fd).events).log := by
          unfold Dispatch.cancelAll
          simp only [if_neg hnone, hctl]
          split <;> rfl
        rw [heq]
        exact triggerMask_owed (d := d.setInterest fd none) h.live fd e
          fun e x hx => (h.filled fd e x hx).2

/-- `cancelAll`, refused. -/
theorem cancelAll_refused {d : Dispatch} (h : MirrorInv d) (fd : Nat) :
    (d.cancelAll fd false).2 = d := by
  have hout : Outcome d (.cancelAll fd false) (d.cancelAll fd false).2 :=
    h.cancelAll_outcome false
  rcases hout with ⟨-, heq⟩ | ⟨c, -, hok, -⟩
  · exact heq
  · cases hok

/-- Without a registration `cancelAll` does nothing. -/
theorem cancelAll_of_none {d : Dispatch} (h : MirrorInv d) {fd : Nat}
    (hreg : ∀ e, d.registered fd e = none) (ok : Bool) : (d.cancelAll fd ok).2 = d := by
  have hnone := ((emptyContext_iff h.inv fd).mpr hreg).1
  simp [Dispatch.cancelAll, hnone]

theorem epollCtl_refused (entry : Option Mask) (op : EpollCtlOp) (events : Mask) :
    epollCtl entry op events false = none := by
  cases entry <;> cases op <;> rfl

theorem addEvent_refused {d : Dispatch} {fd : Nat} {e : Event} {x : EventContext}
    (hev : ¬ (d.ctx fd).events.has e = true) : (d.addEvent fd e x false).2 = d := by
  unfold Dispatch.addEvent
  dsimp only
  rw [if_neg hev, epollCtl_refused]

/-- A registration that an operation brings is that of an `addEvent`. -/
theorem soloStep_registered {d d' : Dispatch} {a : SoloAct} (hs : soloStep d a = some d')
    {fd : Nat} {e : Event} (hx : d'.registered fd e ≠ none) :
    d.registered fd e ≠ none ∨ ∃ scheduler cb current,
      a = .addEvent fd e scheduler cb current true := by
  obtain ⟨x, hx⟩ := Option.ne_none_iff_exists'.mp hx
  have hold : d.registered fd e = some x → d.registered fd e ≠ none := by
    intro h
    simp [h]
  unfold soloStep at hs
  split at hs
  · cases hs
  · cases a with
    | addEvent fd' event scheduler cb current ok =>
        dsimp only at hs
        split at hs
        · cases hs
        · rename_i hev
          cases hs
          cases ok with
          | false =>
              rw [addEvent_refused hev] at hx
              exact .inl (hold hx)
          | true =>
              rcases Dispatch.addEvent_registered hx with h | ⟨rfl, rfl, rfl⟩
              · exact .inl (hold h)
              · exact .inr ⟨scheduler, cb, current, rfl⟩
    | delEvent fd' event ok =>
        cases hs
        exact .inl (hold (Dispatch.delEvent_registered hx))
    | cancelEvent fd' event ok =>
        cases hs
        exact .inl (hold (Dispatch.cancelEvent_registered hx))
    | cancelAll fd' ok =>
        cases hs
        exact .inl (hold (Dispatch.cancelAll_registered hx))
    | dispatch r ok =>
        dsimp only at hs
        split at hs
        · cases hs
          exact .inl (hold (Dispatch.handleReport_registered hx))
        · cases hs

/-- Nothing is written for a descriptor without registrations unless one is added. -/
theorem soloStep_silent {d d' : Dispatch} {a : SoloAct} (hs : soloStep d a = some d') {fd : Nat}
    (hreg : ∀ e, d.registered fd e = none) (e : Event)
    (hadd : ∀ event scheduler cb current ok, a ≠ .addEvent fd event scheduler cb current ok) :
    history d'.log fd e = history d.log fd e := by
  -- an operation on a registered event is on another descriptor
  have hother : ∀ {fd' e'}, (d.ctx fd').events.has e' = true → ∀ r,
      history ((fd', e', r) :: d.log) fd e = history d.log fd e := by
    intro fd' e' hev r
    refine history_cons_of_ne r d.log ?_
    rintro ⟨rfl, rfl⟩
    exact registered_ne_none.mpr hev (hreg e)
  unfold soloStep at hs
  split at hs
  · cases hs
  · cases a with
    | addEvent fd' event scheduler cb current ok =>
        have hne : fd ≠ fd' := by
          rintro rfl
          exact hadd event scheduler cb current ok rfl
        dsimp only at hs
        split at hs
        · cases hs
        · cases hs
          rename_i hev
          unfold Dispatch.addEvent
          dsimp only
          rw [if_neg hev]
          split
          · rfl
          · split
            · exact history_cons_of_ne _ _ fun hkey => hne hkey.1
            · rfl
    | delEvent fd' event ok =>
        cases hs
        unfold Dispatch.delEvent
        dsimp only
        split
        · rename_i hev
          split
          · rfl
          · exact hother hev _
        · rfl
    | cancelEvent fd' event ok =>
        cases hs
        unfold Dispatch.cancelEvent
        split
        · split
          · rfl
          · rename_i d₁ hctl
            obtain ⟨m, rfl⟩ := Dispatch.ctlRemove_some hctl
            exact (trigger_silent (d := d.setInterest fd' m) (hreg e) fd' event).1
        · rfl
    | cancelAll fd' ok =>
        cases hs
        unfold Dispatch.cancelAll
        dsimp only
        split
        · rfl
        · split
          · rfl
          · rename_i m _
            have hmask := triggerMask_silent (d := d.setInterest fd' m) (hreg e) fd'
              (d.ctx fd').events
            split <;> exact hmask
    | dispatch r ok =>
        dsimp only at hs
        split at hs
        · cases hs
          unfold Dispatch.handleReport
          dsimp only
          split
          · rfl
          · split
            · rfl
            · rename_i d₁ hctl
              obtain ⟨m, rfl⟩ := Dispatch.ctlRemove_some hctl
              exact triggerMask_silent (d := d.setInterest r.fd m) (hreg e) r.fd _
        · cases hs

/-- Dropping an entry without registrations. -/
theorem mirrorInv_dropped {d : Dispatch} (h : MirrorInv d) {fd : Nat}
    (hreg : ∀ e, d.registered fd e = none) : MirrorInv (d.setInterest fd none) := by
  refine ⟨Dispatch.setInterest_inv h.inv fd none, h.live, h.filled, fun fd' => ?_⟩
  show Function.update d.interest fd none fd' = entryOf (d.ctx fd').events
  by_cases hfd : fd' = fd
  · rw [hfd, Function.update_self, ((emptyContext_iff h.inv fd).mpr hreg).1]
    rfl
  · rw [Function.update_of_ne hfd]
    exact h.kernel fd'

/-! ## The process -/

/-- The thread cancels through this `IOManager`. -/
def Caller.cancels (caller : Caller) (s : Process) (fd i : Nat) : Prop :=
  caller = ⟨some i, true⟩ ∧ (s.fdMgr.get fd).isSome = true

instance (caller : Caller) (s : Process) (fd i : Nat) : Decidable (caller.cancels s fd i) :=
  inferInstanceAs (Decidable (_ ∧ _))

/-- What the first half of `close` does to each `IOManager`. -/
theorem Process.closeBegin_manager (s : Process) (thread : Nat) (caller : Caller) (fd : Nat)
    (ok : Bool) (i : Nat) :
    (s.closeBegin thread caller fd ok).manager i =
      if caller.cancels s fd i then ((s.manager i).cancelAll fd ok).2 else s.manager i := by
  obtain ⟨iom, hooked⟩ := caller
  unfold Process.closeBegin
  by_cases hfound : hooked = true ∧ (s.fdMgr.get fd).isSome = true
  · obtain ⟨rfl, hget⟩ := hfound
    cases iom with
    | none => simp [hget, Process.cancelAll, Caller.cancels]
    | some j =>
        by_cases hij : i = j
        · simp [hget, Process.cancelAll, Caller.cancels, hij]
        · have hne : ¬ j = i := fun h => hij h.symm
          simp [hget, Process.cancelAll, Caller.cancels, hij, hne]
  · have hno : ¬ Caller.cancels ⟨iom, hooked⟩ s fd i := by
      rintro ⟨hc, hg⟩
      cases hc
      exact hfound ⟨rfl, hg⟩
    rw [if_neg hno]
    simp [hfound]

theorem Process.closeBegin_kernel (s : Process) (thread : Nat) (caller : Caller) (fd : Nat)
    (ok : Bool) : (s.closeBegin thread caller fd ok).kernel = s.kernel := by
  unfold Process.closeBegin Process.cancelAll
  dsimp only
  split
  · split <;> rfl
  · rfl

theorem Process.socket_manager (s : Process) (fd : Nat) (hooked : Bool) :
    (s.socket fd hooked).manager = s.manager ∧ (s.socket fd hooked).closing = s.closing := by
  unfold Process.socket
  dsimp only
  split <;> exact ⟨rfl, rfl⟩

/-- A new socket closes no other number. -/
theorem Process.socket_keeps (s : Process) (fd : Nat) (hooked : Bool) {fd' : Nat}
    (h : (s.kernel.fds fd').isSome = true) :
    ((s.socket fd hooked).kernel.fds fd').isSome = true := by
  have hkernel : ((s.kernel.create fd ⟨true, false⟩).fds fd').isSome = true := by
    by_cases hfd : fd' = fd
    · rw [hfd, Kernel.create_fds_self]
      rfl
    · rw [Kernel.create_fds_of_ne _ _ hfd]
      exact h
  unfold Process.socket
  dsimp only
  split
  · show ((FdCtx.new (s.kernel.create fd ⟨true, false⟩) fd).2.fds fd').isSome = true
    rw [FdCtx.new_fds]
    exact hkernel
  · exact hkernel

/-- Every `IOManager` keeps its own invariant, only open numbers have events registered, and a
call of `close` that has done its cancelling has done what it owes. -/
structure ProcessInv (s : Process) : Prop where
  mirror : ∀ i, MirrorInv (s.manager i)
  opened : ∀ i fd e, (s.manager i).registered fd e ≠ none → (s.kernel.fds fd).isSome = true
  closing : ∀ thread call, s.closing thread = some call → ∀ i e,
    (s.manager i).registered call.fd e = none ∧
      history (s.manager i).log call.fd e = call.owed i e

namespace ProcessInv

variable {s : Process}

theorem start : ProcessInv .start := by
  refine ⟨fun _ => mirror_inductive.init _ rfl, fun i fd e h => ?_, fun thread call h => ?_⟩
  · rw [registered_ne_none] at h
    simp [Process.start, Dispatch.start, FdContext.new] at h
  · cases h

theorem socket (h : ProcessInv s) (fd : Nat) (hooked : Bool) :
    ProcessInv (s.socket fd hooked) := by
  obtain ⟨hmanager, hclosing⟩ := s.socket_manager fd hooked
  refine ⟨fun i => hmanager ▸ h.mirror i, fun i fd' e hreg => ?_, ?_⟩
  · rw [hmanager] at hreg
    exact s.socket_keeps fd hooked (h.opened i fd' e hreg)
  · rw [hmanager, hclosing]
    exact h.closing

theorem io (h : ProcessInv s) {i : Nat} {a : SoloAct} {d : Dispatch}
    (hmay : s.mayAct i a = true) (hok : CloseOk s (.io i a))
    (hd : soloStep (s.manager i) a = some d) :
    ProcessInv { s with manager := Function.update s.manager i d } := by
  refine ⟨fun j => ?_, fun j fd e hreg => ?_, fun thread call hcall j e => ?_⟩
  · show MirrorInv (Function.update s.manager i d j)
    by_cases hj : j = i
    · rw [hj, Function.update_self]
      exact (h.mirror i).step hd
    · rw [Function.update_of_ne hj]
      exact h.mirror j
  · by_cases hj : j = i
    · simp only [hj, Function.update_self] at hreg
      rcases soloStep_registered hd hreg with hold | ⟨scheduler, cb, current, rfl⟩
      · exact h.opened i fd e hold
      · -- the kernel takes open descriptors only
        simpa [Process.mayAct] using (Bool.and_eq_true_iff.mp hmay).2
    · simp only [Function.update_of_ne hj] at hreg
      exact h.opened j fd e hreg
  · show (Function.update s.manager i d j).registered call.fd e = none ∧
      history (Function.update s.manager i d j).log call.fd e = call.owed j e
    by_cases hj : j = i
    · rw [hj, Function.update_self, ← (h.closing thread call hcall i e).2]
      have hadd : ∀ event scheduler cb current ok,
          a ≠ .addEvent call.fd event scheduler cb current ok := by
        rintro event scheduler cb current ok rfl
        exact hok thread call hcall rfl
      refine ⟨?_, soloStep_silent hd (fun e => (h.closing thread call hcall i e).1) e hadd⟩
      by_contra hreg
      rcases soloStep_registered hd hreg with hold | ⟨scheduler, cb, current, heq⟩
      · exact hold (h.closing thread call hcall i e).1
      · exact hadd e scheduler cb current true heq
    · rw [Function.update_of_ne hj]
      exact h.closing thread call hcall j e

variable {thread : Nat} {caller : Caller} {fd : Nat} {ok : Bool}

/-- The first half of a `close` that meets its condition: each `IOManager` has scheduled what
was registered with it. -/
theorem cancels (h : ProcessInv s) (hok : CloseOk s (.closeBegin thread caller fd ok)) (i : Nat)
    (e : Event) :
    ((s.closeBegin thread caller fd ok).manager i).registered fd e = none ∧
      history ((s.closeBegin thread caller fd ok).manager i).log fd e =
        owed (s.manager i) fd e := by
  rw [Process.closeBegin_manager]
  by_cases hreg : ∀ e, (s.manager i).registered fd e = none
  · rw [cancelAll_of_none (h.mirror i) hreg, ite_self, owed_of_none (hreg e)]
    exact ⟨hreg e, rfl⟩
  · push Not at hreg
    obtain ⟨e', he⟩ := hreg
    obtain ⟨hcaller, hget, rfl⟩ := hok i e' he
    rw [if_pos ⟨hcaller, hget⟩]
    obtain ⟨-, hnone, howed⟩ := cancelAll_accepted (h.mirror i) fd
    exact ⟨hnone e, howed e⟩

/-- One `IOManager` through the first half of `close`: it makes a step of its own or none. -/
theorem closeBegin_step (h : ProcessInv s) (thread : Nat) (caller : Caller) (fd : Nat) (ok : Bool)
    (i : Nat) :
    (s.closeBegin thread caller fd ok).manager i = s.manager i ∨
      soloStep (s.manager i) (.cancelAll fd ok) =
        some ((s.closeBegin thread caller fd ok).manager i) := by
  rw [Process.closeBegin_manager]
  split
  · refine .inr ?_
    unfold soloStep
    rw [if_neg (by simp [(h.mirror i).live])]
  · exact .inl rfl

theorem closeBegin (h : ProcessInv s) (hok : CloseOk s (.closeBegin thread caller fd ok)) :
    ProcessInv (s.closeBegin thread caller fd ok) := by
  refine ⟨fun i => ?_, fun i fd' e hreg => ?_, fun thread' call hcall i e => ?_⟩
  · rcases h.closeBegin_step thread caller fd ok i with heq | hstep
    · rw [heq]
      exact h.mirror i
    · exact (h.mirror i).step hstep
  · rw [Process.closeBegin_kernel]
    rcases h.closeBegin_step thread caller fd ok i with heq | hstep
    · rw [heq] at hreg
      exact h.opened i fd' e hreg
    · rcases soloStep_registered hstep hreg with hold | ⟨scheduler, cb, current, ha⟩
      · exact h.opened i fd' e hold
      · cases ha
  · by_cases ht : thread' = thread
    · have hnew : call = ⟨fd, caller.hooked && (s.fdMgr.get fd).isSome,
          fun i e => owed (s.manager i) fd e⟩ := by
        simpa [Process.closeBegin, ht] using hcall.symm
      rw [hnew]
      exact h.cancels hok i e
    · have hold : s.closing thread' = some call := by
        simpa [Process.closeBegin, ht] using hcall
      have hin := h.closing thread' call hold
      rcases h.closeBegin_step thread caller fd ok i with heq | hstep
      · rw [heq]
        exact hin i e
      · refine ⟨?_, ?_⟩
        · by_contra hreg
          rcases soloStep_registered hstep hreg with hreg | ⟨scheduler, cb, current, ha⟩
          · exact hreg (hin i e).1
          · cases ha
        · rw [← (hin i e).2]
          exact soloStep_silent hstep (fun e => (hin i e).1) e fun _ _ _ _ _ => by simp

/-- The second half. -/
theorem leavesNothing (h : ProcessInv s) {call : Closing} (hcall : s.closing thread = some call) :
    LeavesNothing (s.closeEnd thread call) call := by
  have hin := h.closing thread call hcall
  refine ⟨fun i => ?_, fun i e => (hin i e).2⟩
  exact (emptyContext_iff (h.mirror i).inv call.fd).mpr fun e => (hin i e).1

theorem closeEnd (h : ProcessInv s) {call : Closing} (hcall : s.closing thread = some call) :
    ProcessInv (s.closeEnd thread call) := by
  have hin := h.closing thread call hcall
  refine ⟨fun i => mirrorInv_dropped (h.mirror i) fun e => (hin i e).1, fun i fd' e hreg => ?_,
    fun thread' call' hcall' => ?_⟩
  · have hreg : (s.manager i).registered fd' e ≠ none := hreg
    show (Function.update s.kernel.fds call.fd none fd').isSome = true
    by_cases hfd : fd' = call.fd
    · exact absurd (hin i e).1 (hfd ▸ hreg)
    · rw [Function.update_of_ne hfd]
      exact h.opened i fd' e hreg
  · by_cases ht : thread' = thread
    · simp [Process.closeEnd, Process.close_f, ht] at hcall'
    · have hold : s.closing thread' = some call' := by
        simpa [Process.closeEnd, Process.close_f, ht] using hcall'
      exact h.closing thread' call' hold

theorem step (h : ProcessInv s) {a : CloseAct} {s' : Process} (hok : CloseOk s a)
    (hs : closeStep s a = some s') : ProcessInv s' := by
  unfold closeStep at hs
  cases a with
  | socket fd hooked =>
      obtain ⟨-, rfl⟩ := when_eq_some.mp hs
      exact h.socket fd hooked
  | io i a =>
      dsimp only at hs
      split at hs
      · rename_i hmay
        rw [Option.map_eq_some_iff] at hs
        obtain ⟨d, hd, rfl⟩ := hs
        exact h.io hmay hok hd
      · cases hs
  | closeBegin thread caller fd ok =>
      dsimp only at hs
      split at hs
      · cases hs
      · cases hs
        exact h.closeBegin hok
  | closeEnd thread =>
      dsimp only at hs
      rw [Option.map_eq_some_iff] at hs
      obtain ⟨call, hcall, rfl⟩ := hs
      exact h.closeEnd hcall

/-- A call that nobody disturbs leaves a registration elsewhere, and one whose removal the
kernel refuses. -/
theorem closeOk_of_leavesNothing (h : ProcessInv s) {call : Closing}
    (hn : LeavesNothing ((s.closeBegin thread caller fd ok).closeEnd thread call) call)
    (hfd : call.fd = fd) : CloseOk s (.closeBegin thread caller fd ok) := by
  intro i e he
  have hgone : ((s.closeBegin thread caller fd ok).manager i).registered fd e = none := by
    have hempty := (hn.empty i).1
    rw [hfd] at hempty
    rw [← not_ne_iff, registered_ne_none,
      show ((s.closeBegin thread caller fd ok).manager i).ctx fd =
        (((s.closeBegin thread caller fd ok).closeEnd thread call).manager i).ctx fd from rfl,
      hempty, Mask.has_NONE]
    simp
  rw [Process.closeBegin_manager] at hgone
  by_cases hc : caller.cancels s fd i
  · refine ⟨hc.1, hc.2, ?_⟩
    cases ok with
    | true => rfl
    | false =>
        rw [if_pos hc, cancelAll_refused (h.mirror i)] at hgone
        exact absurd hgone he
  · rw [if_neg hc] at hgone
    exact absurd hgone he

end ProcessInv

theorem process_inductive : closeSys.Inductive CloseOk ProcessInv where
  init := by
    rintro s rfl
    exact .start
  step := fun _ _ _ h hok hs => h.step hok hs

/-- In every run in which each `close` is made with the hook enabled by a worker of the only
`IOManager` that has events of the descriptor registered, and nobody adds an event before
`close_f`, each call that returns has emptied the descriptor's context in every `IOManager` and
scheduled what waited once; a number that is not open has an empty context, and every
registration ends once. Of a call that nobody disturbs the condition is necessary too. -/
theorem close_leaves_nothing {s : Process} (h : closeSys.Reaches CloseOk s) :
    (∀ thread call s', s.closing thread = some call →
      closeStep s (.closeEnd thread) = some s' → LeavesNothing s' call) ∧
    (∀ fd i, s.kernel.fds fd = none → EmptyContext (s.manager i) fd) ∧
    (∀ fd i e, Alternates (history (s.manager i).log fd e) ((s.manager i).registered fd e)) ∧
    ∀ thread caller fd ok s₁ s₂ call,
      closeStep s (.closeBegin thread caller fd ok) = some s₁ → s₁.closing thread = some call →
      closeStep s₁ (.closeEnd thread) = some s₂ →
      (LeavesNothing s₂ call ↔ CloseOk s (.closeBegin thread caller fd ok)) := by
  have hinv := process_inductive.invariant h
  have hend : ∀ {s thread call s'}, s.closing thread = some call →
      closeStep s (.closeEnd thread) = some s' → s' = s.closeEnd thread call := by
    intro s thread call s' hcall hs
    simp only [closeStep, hcall, Option.map_some, Option.some.injEq] at hs
    exact hs.symm
  refine ⟨?_, fun fd i hclosed => ?_, fun fd i e => (hinv.mirror i).inv.safe.once fd e, ?_⟩
  · intro thread call s' hcall hs
    rw [hend hcall hs]
    exact hinv.leavesNothing hcall
  · rw [emptyContext_iff (hinv.mirror i).inv]
    intro e
    by_contra hreg
    have hopen := hinv.opened i fd e hreg
    rw [hclosed] at hopen
    cases hopen
  · intro thread caller fd ok s₁ s₂ call hs₁ hcall hs₂
    rw [hend hcall hs₂]
    simp only [closeStep] at hs₁
    split at hs₁
    · cases hs₁
    · cases hs₁
      constructor
      · intro hn
        refine hinv.closeOk_of_leavesNothing hn ?_
        simp only [Process.closeBegin, Function.update_self, Option.some.injEq] at hcall
        exact hcall ▸ rfl
      · intro hok
        exact (hinv.closeBegin hok).leavesNothing hcall

/-- Fiber 7, on a worker of `IOManager` 0, waits to read from socket 5. -/
def waitState : Process :=
  { Process.start.socket 5 true with
    manager := Function.update (fun _ => .start) 0
      (Dispatch.start.addEvent 5 .READ (Dispatch.eventContext (some 0) none 7) true).2 }

theorem waitState_reached {G : Process → CloseAct → Prop} (hG : ∀ s a, CloseOk s a → G s a) :
    closeSys.Reaches G waitState := by
  have hsocket : closeSys.Reaches G (Process.start.socket 5 true) :=
    .step (a := .socket 5 true) (.init rfl) (hG _ _ trivial) rfl
  have hidle : CloseOk (Process.start.socket 5 true)
      (.io 0 (.addEvent 5 .READ 0 none 7 true)) := by
    intro thread call hcall
    cases hcall
  exact .step (a := .io 0 (.addEvent 5 .READ 0 none 7 true)) hsocket (hG _ _ hidle) rfl

/-- A worker of the same `IOManager` closes the socket. -/
theorem close_leaves_nothing_own : ∃ s call, closeSys.Reaches CloseOk s ∧
    s.closing 0 = some call ∧ LeavesNothing (s.closeEnd 0 call) call ∧
    (s.manager 0).scheduled = [(some 0, .ofFiber 7 none)] := by
  have hok : CloseOk waitState (.closeBegin 0 ⟨some 0, true⟩ 5 true) := by
    intro i e hreg
    by_cases hi : i = 0
    · rw [hi]
      exact ⟨rfl, rfl, rfl⟩
    · have hstart : waitState.manager i = .start := by
        simp [waitState, hi]
      rw [hstart, registered_ne_none] at hreg
      simp [Dispatch.start, FdContext.new] at hreg
  have hreach : closeSys.Reaches CloseOk (waitState.closeBegin 0 ⟨some 0, true⟩ 5 true) :=
    .step (waitState_reached fun _ _ h => h) hok rfl
  exact ⟨_, _, hreach, rfl, (close_leaves_nothing hreach).1 0 _ _ rfl rfl, rfl⟩

/-- A worker of another `IOManager`, or a thread that is no worker, closes the socket: fiber 7
is not scheduled, and `READ` stays registered. -/
theorem close_leaves_registration : closeSys.Reachable waitState ∧
    ∀ iom, iom ≠ some 0 → ∃ s call, closeSys.Reachable s ∧
      s = waitState.closeBegin 0 ⟨iom, true⟩ 5 true ∧ s.closing 0 = some call ∧
      ¬ LeavesNothing (s.closeEnd 0 call) call ∧
      ((s.closeEnd 0 call).manager 0).scheduled = [] ∧
      (((s.closeEnd 0 call).manager 0).ctx 5).events = .ofEvent .READ := by
  have hwait : closeSys.Reachable waitState := waitState_reached fun _ _ _ => trivial
  refine ⟨hwait, fun iom hiom => ⟨_, _,
    .step (a := .closeBegin 0 ⟨iom, true⟩ 5 true) hwait trivial rfl, rfl, rfl, ?_⟩⟩
  have hmanager : (waitState.closeBegin 0 ⟨iom, true⟩ 5 true).manager 0 = waitState.manager 0 := by
    rw [Process.closeBegin_manager, if_neg]
    rintro ⟨hc, -⟩
    cases hc
    exact hiom rfl
  unfold Process.closeEnd Process.close_f
  dsimp only
  rw [hmanager]
  refine ⟨fun hn => ?_, rfl, rfl⟩
  have hnone := (hn.empty 0).1
  dsimp only at hnone
  rw [hmanager] at hnone
  cases hnone

/-- Fiber 7 runs again before `close_f`, finds the socket open and waits once more. -/
def retryTrace : List CloseAct :=
  [.socket 5 true, .io 0 (.addEvent 5 .READ 0 none 7 true),
    .closeBegin 0 ⟨some 0, true⟩ 5 true, .io 0 (.addEvent 5 .READ 0 none 7 true),
    .closeEnd 0]

example : ∃ s, closeSys.Reachable s ∧ s.kernel.fds 5 = none ∧
    ((s.manager 0).ctx 5).events = .ofEvent .READ := by
  have hrun : ∃ s, closeSys.Reachable s ∧ decide (s.kernel.fds 5 = none ∧
      ((s.manager 0).ctx 5).events = .ofEvent .READ) = true :=
    TSys.exists_reachable (l := retryTrace) rfl (by decide)
  obtain ⟨s, hs, htest⟩ := hrun
  exact ⟨s, hs, of_decide_eq_true htest⟩

end Gxh.Hook
