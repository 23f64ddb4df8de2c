import Gxh.Lib.TSys
import Gxh.Lib.Word
import Gxh.IOManager.FdContext
import Mathlib.Data.Finset.Card
import Mathlib.Logic.Function.Basic

/-!
# Event registration, cancellation and dispatch

`addEvent`, `delEvent`, `cancelEvent` and `cancelAll` each run under the mutex of one
`FdContext`, and so does the body of the loop in `idle` that handles one entry of an
`epoll_wait` result. Between the `epoll_wait` and that body any of the others may run.

* `Dispatch` is the state shared by these functions: the contexts, the kernel's interest
  list, `m_pendingEventCount` and what has been scheduled. The table of `ContextTable`
  is a total function here, since an entry past its end has no event registered.
* `Dispatch.log` records when a registration begins and how it ends; no function of the
  source reads it.
* `dispatchSys` interleaves the lock sections; an `epoll_wait` result may be as old as it
  likes, but its `EPOLLIN` and `EPOLLOUT` bits were in the interest mask when taken.
* `SafeTrigger` is the condition on a step under which `triggerEvent` finds its event
  registered and the scheduler of the registration set. `addEvent` stores a null scheduler
  on a thread that belongs to none.
-/

namespace Gxh.IOManager

/-- The operations of `epoll_ctl`. -/
inductive EpollCtlOp
  | ADD
  | MOD
  | DEL
  deriving DecidableEq, Repr

/-- `epoll_ctl` on the entry of one descriptor. `ADD` fails when there is an entry, `MOD`
and `DEL` when there is none; `ok = false` is a failure for any other reason. -/
def epollCtl (entry : Option Mask) (op : EpollCtlOp) (events : Mask) (ok : Bool) :
    Option (Option Mask) :=
  match op, entry with
  | .ADD, none => if ok then some (some events) else none
  | .ADD, some _ => none
  | .MOD, some _ => if ok then some (some events) else none
  | .DEL, some _ => if ok then some none else none
  | _, none => none

/-- An `epoll_event` as `epoll_wait` returns it: the descriptor of its context, the
`EPOLLIN` and `EPOLLOUT` bits, and whether `EPOLLERR` or `EPOLLHUP` is set. -/
structure Report where
  fd : Nat
  bits : Mask
  errHup : Bool
  deriving DecidableEq, Repr

/-- The beginning of a registration, or the way it ends. -/
inductive Record
  | added (ctx : EventContext)
  | scheduled (scheduler : Option Nat) (task : ScheduleTask)
  | deleted
  deriving DecidableEq, Repr

/-- Where these functions end the process: at an assertion, or in `triggerEvent` at the call
of `schedule` through a null pointer. -/
inductive Site
  | addEvent
  | addEventContext
  | triggerEvent
  | schedule
  | cancelAll
  deriving DecidableEq, Repr

/-- The state the lock sections work on. -/
structure Dispatch where
  ctx : Nat → FdContext
  interest : Nat → Option Mask
  pendingEventCount : Nat
  scheduled : List (Option Nat × ScheduleTask)
  /-- What is left of each thread's last `epoll_wait` result. -/
  reports : Nat → List Report
  /-- The place that ended the process. -/
  aborted : Option Site
  log : List (Nat × Event × Record)

namespace Dispatch

def start : Dispatch where
  ctx := FdContext.new
  interest := fun _ => none
  pendingEventCount := 0
  scheduled := []
  reports := fun _ => []
  aborted := none
  log := []

/-- A failed `GXH_ASSERT`, or a null pointer. -/
def abort (s : Dispatch) (site : Site) : Dispatch := { s with aborted := some site }

def setCtx (s : Dispatch) (fd : Nat) (c : FdContext) : Dispatch :=
  { s with ctx := Function.update s.ctx fd c }

def setInterest (s : Dispatch) (fd : Nat) (m : Option Mask) : Dispatch :=
  { s with interest := Function.update s.interest fd m }

/-- `fd_ctx->triggerEvent(event); --m_pendingEventCount`. Once the process has ended nothing
more is executed. -/
def trigger (s : Dispatch) (fd : Nat) (event : Event) : Dispatch :=
  match s.aborted with
  | some _ => s
  | none =>
      match (s.ctx fd).triggerEvent event with
      | none => s.abort .triggerEvent
      | some (c, task) =>
          let scheduler := ((s.ctx fd).getEventContext event).scheduler
          if scheduler = none then (s.setCtx fd c).abort .schedule
          else
            { s.setCtx fd c with
              scheduled := s.scheduled ++ [(scheduler, task)]
              pendingEventCount := pred64 s.pendingEventCount
              log := (fd, event, .scheduled scheduler task) :: s.log }

/-- The context `addEvent` stores: the callback, or the running fiber if there is none. -/
def eventContext (scheduler : Option Nat) (cb : Option CbId) (current : FiberId) :
    EventContext :=
  match cb with
  | some c => ⟨scheduler, none, some c⟩
  | none => ⟨scheduler, some current, none⟩

/-- `IOManager::addEvent`, from the acquisition of the context's mutex on. -/
def addEvent (s : Dispatch) (fd : Nat) (event : Event) (x : EventContext) (ok : Bool) :
    Int × Dispatch :=
  let c := s.ctx fd
  if c.events.has event then (0, s.abort .addEvent)
  else
    let op := if c.events = .NONE then .ADD else .MOD
    let events := c.events.union (.ofEvent event)
    match epollCtl (s.interest fd) op events ok with
    | none => (-1, s)
    | some i =>
        if c.getEventContext event = .empty then
          (0, { (s.setInterest fd i).setCtx fd
                  ({ c with events }.setEventContext event x) with
                pendingEventCount := s.pendingEventCount + 1
                log := (fd, event, .added x) :: s.log })
        else (0, s.abort .addEventContext)

/-- The `epoll_ctl` call of `delEvent` and `cancelEvent`, which leaves the other events. -/
def ctlRemove (s : Dispatch) (fd : Nat) (removed : Mask) (ok : Bool) : Option Dispatch :=
  let left := (s.ctx fd).events.diff removed
  let op := if left = .NONE then .DEL else .MOD
  (epollCtl (s.interest fd) op left ok).map (s.setInterest fd)

/-- `IOManager::delEvent`. -/
def delEvent (s : Dispatch) (fd : Nat) (event : Event) (ok : Bool) : Bool × Dispatch :=
  let c := s.ctx fd
  if c.events.has event then
    match s.ctlRemove fd (.ofEvent event) ok with
    | none => (false, s)
    | some s' =>
        (true, { s'.setCtx fd
                  ({ c with events := c.events.diff (.ofEvent event) }.resetEventContext event) with
                pendingEventCount := pred64 s.pendingEventCount
                log := (fd, event, .deleted) :: s.log })
  else (false, s)

/-- `IOManager::cancelEvent`. -/
def cancelEvent (s : Dispatch) (fd : Nat) (event : Event) (ok : Bool) : Bool × Dispatch :=
  if (s.ctx fd).events.has event then
    match s.ctlRemove fd (.ofEvent event) ok with
    | none => (false, s)
    | some s' => (true, s'.trigger fd event)
  else (false, s)

/-- Trigger the events of a mask, `READ` first. -/
def triggerMask (s : Dispatch) (fd : Nat) (m : Mask) : Dispatch :=
  let s := if m.has .READ then s.trigger fd .READ else s
  if m.has .WRITE then s.trigger fd .WRITE else s

/-- `IOManager::cancelAll`. -/
def cancelAll (s : Dispatch) (fd : Nat) (ok : Bool) : Bool × Dispatch :=
  let c := s.ctx fd
  if c.events = .NONE then (false, s)
  else
    match epollCtl (s.interest fd) .DEL .NONE ok with
    | none => (false, s)
    | some i =>
        let s := (s.setInterest fd i).triggerMask fd c.events
        if (s.ctx fd).events = .NONE ∨ s.aborted.isSome = true then (true, s)
        else (true, s.abort .cancelAll)

/-- `real_events`: the reported bits, with every registered event on an error. -/
def realEvents (c : FdContext) (r : Report) : Mask :=
  if r.errHup then r.bits.union c.events else r.bits

/-- The body of the loop over an `epoll_wait` result in `IOManager::idle`. -/
def handleReport (s : Dispatch) (r : Report) (ok : Bool) : Dispatch :=
  let real := realEvents (s.ctx r.fd) r
  if (s.ctx r.fd).events.inter real = .NONE then s
  else
    match s.ctlRemove r.fd real ok with
    | none => s
    | some s' => s'.triggerMask r.fd real

end Dispatch

/-- One lock section, one `epoll_wait`, or the kernel dropping a closed descriptor from the
interest list. -/
inductive DispatchAct
  | addEvent (fd : Nat) (event : Event) (scheduler : Option Nat) (cb : Option CbId)
      (current : FiberId) (ok : Bool)
  | delEvent (fd : Nat) (event : Event) (ok : Bool)
  | cancelEvent (fd : Nat) (event : Event) (ok : Bool)
  | cancelAll (fd : Nat) (ok : Bool)
  | epollWait (thread : Nat) (result : List Report)
  | handle (thread : Nat) (ok : Bool)
  | closed (fd : Nat)
  deriving DecidableEq, Repr

/-- The bits of a report are in the descriptor's interest mask. -/
def Report.taken (s : Dispatch) (r : Report) : Bool :=
  (s.interest r.fd).any fun m => r.bits.subset m

/-- The step function. Once the process has ended there is no step. -/
def dispatchStep (s : Dispatch) (a : DispatchAct) : Option Dispatch :=
  if s.aborted.isSome then none
  else
    match a with
    | .addEvent fd event scheduler cb current ok =>
        some (s.addEvent fd event (Dispatch.eventContext scheduler cb current) ok).2
    | .delEvent fd event ok => some (s.delEvent fd event ok).2
    | .cancelEvent fd event ok => some (s.cancelEvent fd event ok).2
    | .cancelAll fd ok => some (s.cancelAll fd ok).2
    | .epollWait thread result =>
        if s.reports thread = [] ∧ ∀ r ∈ result, r.taken s = true then
          some { s with reports := Function.update s.reports thread result }
        else none
    | .handle thread ok =>
        match s.reports thread with
        | [] => none
        | r :: rest =>
            some (({ s with reports := Function.update s.reports thread rest }).handleReport r ok)
    | .closed fd => some (s.setInterest fd none)

def dispatchSys : TSys Dispatch DispatchAct where
  init := fun s => s = .start
  step := dispatchStep

/-- Every registered event of a mask has a scheduler to go to. -/
def Dispatch.schedules (s : Dispatch) (fd : Nat) (m : Mask) : Bool :=
  (!m.read || (s.ctx fd).read.scheduler.isSome) && (!m.write || (s.ctx fd).write.scheduler.isSome)

/-- A step ends no process. A report is handled when each bit it carries is still registered,
or none of them is and no error is reported on a registered event; a cancelled or reported
event was registered on a thread of a scheduler; or `epoll_ctl` refuses the change. -/
def SafeTrigger (s : Dispatch) : DispatchAct → Prop
  | .cancelEvent fd event ok => (s.ctx fd).events.has event = true →
      s.schedules fd (.ofEvent event) = true ∨ ok = false ∨ s.interest fd = none
  | .cancelAll fd ok => s.schedules fd (s.ctx fd).events = true ∨ ok = false ∨ s.interest fd = none
  | .handle thread ok => ∀ r ∈ (s.reports thread).head?,
      (r.bits.subset (s.ctx r.fd).events = true ∧
        s.schedules r.fd (Dispatch.realEvents (s.ctx r.fd) r) = true) ∨
      (r.bits.inter (s.ctx r.fd).events = .NONE ∧
        (r.errHup = true → (s.ctx r.fd).events = .NONE)) ∨
      ok = false ∨ s.interest r.fd = none
  | _ => True

instance (s : Dispatch) : DecidablePred (SafeTrigger s)
  | .cancelEvent _ _ _ => inferInstanceAs (Decidable (_ → _))
  | .cancelAll _ _ => inferInstanceAs (Decidable (_ ∨ _))
  | .handle _ _ => inferInstanceAs (Decidable (∀ _ ∈ _, _))
  | .addEvent _ _ _ _ _ _ | .delEvent _ _ _ | .epollWait _ _ | .closed _ => .isTrue trivial

/-! ## The property -/

/-- The records of one event of one descriptor, newest first. -/
def history (log : List (Nat × Event × Record)) (fd : Nat) (event : Event) : List Record :=
  log.filterMap fun r => if r.1 = fd ∧ r.2.1 = event then some r.2.2 else none

/-- `Alternates l o`: in the history `l` every registration is followed by exactly one end,
a `schedule` of its own callback or fiber or a deletion, before the next one begins; `o` is
the registration that has not ended yet. -/
inductive Alternates : List Record → Option EventContext → Prop
  | nil : Alternates [] none
  | added {l : List Record} {x : EventContext} : Alternates l none →
      Alternates (.added x :: l) (some x)
  | scheduled {l : List Record} {x : EventContext} : Alternates l (some x) →
      Alternates (.scheduled x.scheduler x.task :: l) none
  | deleted {l : List Record} {x : EventContext} : Alternates l (some x) →
      Alternates (.deleted :: l) none

/-- The registration a context holds for one event. -/
def FdContext.slot (c : FdContext) (event : Event) : Option EventContext :=
  if c.events.has event then some (c.getEventContext event) else none

def Dispatch.registered (s : Dispatch) (fd : Nat) (event : Event) : Option EventContext :=
  (s.ctx fd).slot event

/-- The events of all descriptors whose registration has not ended. -/
def Dispatch.Outstanding (s : Dispatch) (F : Finset (Nat × Event)) : Prop :=
  ∀ fd event, (fd, event) ∈ F ↔ (s.registered fd event).isSome = true

structure DispatchSafe (s : Dispatch) : Prop where
  noAbort : s.aborted ≠ some .triggerEvent
  noNull : s.aborted ≠ some .schedule
  once : ∀ fd event, Alternates (history s.log fd event) (s.registered fd event)
  counted : ∃ F, s.Outstanding F ∧ s.pendingEventCount = F.card

/-! ## One slot at a time -/

/-- `c'` is `c` with the slot of one event set to `v`, cleared if `v = none`. -/
structure SetsSlot (c c' : FdContext) (event : Event) (v : Option EventContext) : Prop where
  here : c'.slot event = v
  cleared : v = none → c'.getEventContext event = .empty
  other : ∀ e, e ≠ event → c'.slot e = c.slot e ∧
    c'.getEventContext e = c.getEventContext e

theorem del_setsSlot (c : FdContext) (event : Event) :
    SetsSlot c ({ c with events := c.events.diff (.ofEvent event) }.resetEventContext event)
      event none := by
  refine ⟨?_, ?_, ?_⟩
  · simp [FdContext.slot, FdContext.resetEventContext]
  · intro _
    simp [FdContext.resetEventContext, FdContext.getEventContext_setEventContext]
  · intro e he
    simp [FdContext.slot, FdContext.resetEventContext,
      FdContext.getEventContext_setEventContext, he.symm]

theorem triggerEvent_setsSlot {c c' : FdContext} {event : Event} {task : ScheduleTask}
    (h : c.triggerEvent event = some (c', task)) :
    SetsSlot c c' event none ∧ c.slot event = some (c.getEventContext event) ∧
      task = (c.getEventContext event).task := by
  unfold FdContext.triggerEvent at h
  split at h
  · rename_i hev
    simp only [Option.some.injEq, Prod.mk.injEq] at h
    obtain ⟨rfl, rfl⟩ := h
    exact ⟨del_setsSlot c event, by simp [FdContext.slot, hev], rfl⟩
  · cases h

theorem add_setsSlot (c : FdContext) (event : Event) (x : EventContext) :
    SetsSlot c ({ c with events := c.events.union (.ofEvent event) }.setEventContext event x)
      event (some x) := by
  refine ⟨?_, by simp, ?_⟩
  · simp [FdContext.slot, FdContext.getEventContext_setEventContext]
  · intro e he
    simp [FdContext.slot, FdContext.getEventContext_setEventContext, he.symm]

/-! ## The invariant -/

/-- Besides safety: an event that is not registered has an empty context, so the second
assertion of `addEvent` holds. -/
structure DispatchInv (s : Dispatch) : Prop where
  clean : ∀ fd event, s.registered fd event = none → (s.ctx fd).getEventContext event = .empty
  safe : DispatchSafe s

theorem history_cons_self (log : List (Nat × Event × Record)) (fd : Nat) (event : Event)
    (r : Record) : history ((fd, event, r) :: log) fd event = r :: history log fd event := by
  simp [history]

theorem history_cons_of_ne {fd fd' : Nat} {event event' : Event} (r : Record)
    (log : List (Nat × Event × Record)) (h : ¬(fd' = fd ∧ event' = event)) :
    history ((fd, event, r) :: log) fd' event' = history log fd' event' := by
  have hne : ¬(fd = fd' ∧ event = event') := fun ⟨h1, h2⟩ => h ⟨h1.symm, h2.symm⟩
  simp [history, hne]

/-- The slots of the state after one of them is set. -/
theorem registered_of_setsSlot {s s' : Dispatch} {fd : Nat} {event : Event} {c : FdContext}
    {v : Option EventContext} (hctx : s'.ctx = Function.update s.ctx fd c)
    (hset : SetsSlot (s.ctx fd) c event v) (fd' : Nat) (event' : Event) :
    s'.registered fd' event' =
      if fd' = fd ∧ event' = event then v else s.registered fd' event' := by
  have hslot : ∀ (t : Dispatch), t.registered fd' event' = (t.ctx fd').slot event' := fun _ => rfl
  rw [hslot, hslot, hctx]
  by_cases hfd : fd' = fd
  · subst hfd
    rw [Function.update_self]
    by_cases hev : event' = event
    · subst hev
      simp [hset.here]
    · simp [hev, (hset.other event' hev).1]
  · simp [hfd]

theorem clean_of_setsSlot {s s' : Dispatch} {fd : Nat} {event : Event} {c : FdContext}
    {v : Option EventContext} (hinv : DispatchInv s)
    (hctx : s'.ctx = Function.update s.ctx fd c)
    (hset : SetsSlot (s.ctx fd) c event v) (fd' : Nat) (event' : Event)
    (h : s'.registered fd' event' = none) : (s'.ctx fd').getEventContext event' = .empty := by
  rw [registered_of_setsSlot hctx hset] at h
  rw [hctx]
  by_cases hfd : fd' = fd
  · subst hfd
    rw [Function.update_self]
    by_cases hev : event' = event
    · subst hev
      exact hset.cleared (by simpa using h)
    · rw [(hset.other event' hev).2]
      exact hinv.clean fd' event' (by simpa [hev] using h)
  · rw [Function.update_of_ne hfd]
    exact hinv.clean fd' event' (by simpa [hfd] using h)

/-- The histories after a record is added for the slot that was set. -/
theorem once_of_setsSlot {s s' : Dispatch} {fd : Nat} {event : Event} {c : FdContext}
    {v : Option EventContext} {r : Record} (hinv : DispatchInv s)
    (hctx : s'.ctx = Function.update s.ctx fd c)
    (hset : SetsSlot (s.ctx fd) c event v) (hlog : s'.log = (fd, event, r) :: s.log)
    (hr : Alternates (r :: history s.log fd event) v) (fd' : Nat) (event' : Event) :
    Alternates (history s'.log fd' event') (s'.registered fd' event') := by
  rw [registered_of_setsSlot hctx hset, hlog]
  by_cases hkey : fd' = fd ∧ event' = event
  · obtain ⟨rfl, rfl⟩ := hkey
    rw [history_cons_self, if_pos ⟨rfl, rfl⟩]
    exact hr
  · rw [history_cons_of_ne r s.log hkey, if_neg hkey]
    exact hinv.safe.once fd' event'

/-- A registration that ends is one less outstanding, and the count was not zero. -/
theorem counted_remove {s s' : Dispatch} {fd : Nat} {event : Event} {c : FdContext}
    {x : EventContext} (hinv : DispatchInv s) (hctx : s'.ctx = Function.update s.ctx fd c)
    (hset : SetsSlot (s.ctx fd) c event none) (hreg : s.registered fd event = some x)
    (hpending : s'.pendingEventCount = pred64 s.pendingEventCount) :
    ∃ F, s'.Outstanding F ∧ s'.pendingEventCount = F.card := by
  obtain ⟨F, hF, hcard⟩ := hinv.safe.counted
  have hmem : (fd, event) ∈ F := (hF fd event).mpr (by rw [hreg]; rfl)
  have hpos : 0 < F.card := Finset.card_pos.mpr ⟨_, hmem⟩
  refine ⟨F.erase (fd, event), ?_, ?_⟩
  · intro fd' event'
    rw [registered_of_setsSlot hctx hset, Finset.mem_erase, hF]
    by_cases hkey : fd' = fd ∧ event' = event
    · simp [hkey]
    · simp [hkey]
  · rw [hpending, hcard, pred64_of_pos hpos, Finset.card_erase_of_mem hmem]

/-- A new registration is one more outstanding. -/
theorem counted_add {s s' : Dispatch} {fd : Nat} {event : Event} {c : FdContext}
    {x : EventContext} (hinv : DispatchInv s) (hctx : s'.ctx = Function.update s.ctx fd c)
    (hset : SetsSlot (s.ctx fd) c event (some x)) (hreg : s.registered fd event = none)
    (hpending : s'.pendingEventCount = s.pendingEventCount + 1) :
    ∃ F, s'.Outstanding F ∧ s'.pendingEventCount = F.card := by
  obtain ⟨F, hF, hcard⟩ := hinv.safe.counted
  have hmem : (fd, event) ∉ F := by
    rw [hF, hreg]
    simp
  refine ⟨insert (fd, event) F, ?_, ?_⟩
  · intro fd' event'
    rw [registered_of_setsSlot hctx hset, Finset.mem_insert, hF]
    by_cases hkey : fd' = fd ∧ event' = event
    · simp [hkey]
    · simp [hkey]
  · rw [hpending, hcard, Finset.card_insert_of_notMem hmem]

/-- A field no part of the invariant reads may change. -/
theorem DispatchInv.of_eq {s s' : Dispatch} (hinv : DispatchInv s) (hctx : s'.ctx = s.ctx)
    (hlog : s'.log = s.log) (hpending : s'.pendingEventCount = s.pendingEventCount)
    (habort : s'.aborted ≠ some .triggerEvent) (hnull : s'.aborted ≠ some .schedule) :
    DispatchInv s' := by
  have hreg : ∀ fd event, s'.registered fd event = s.registered fd event := by
    intro fd event
    simp [Dispatch.registered, hctx]
  refine ⟨?_, habort, hnull, ?_, ?_⟩
  · intro fd event h
    rw [hctx]
    exact hinv.clean fd event (hreg fd event ▸ h)
  · intro fd event
    rw [hlog, hreg]
    exact hinv.safe.once fd event
  · obtain ⟨F, hF, hcard⟩ := hinv.safe.counted
    exact ⟨F, fun fd event => by rw [hreg]; exact hF fd event, hpending.trans hcard⟩

theorem start_inv_dispatch : DispatchInv .start := by
  have hreg : ∀ fd event, Dispatch.start.registered fd event = none := by
    intro fd event
    simp [Dispatch.registered, Dispatch.start, FdContext.slot, FdContext.new]
  refine ⟨?_, by simp [Dispatch.start], by simp [Dispatch.start], ?_, ∅, ?_, rfl⟩
  · intro fd event _
    cases event <;> rfl
  · intro fd event
    rw [hreg]
    exact .nil
  · intro fd event
    simp [hreg]

/-! ## The operations -/

namespace Dispatch

variable {s : Dispatch} {fd : Nat} {event : Event}

theorem registered_eq (s : Dispatch) (fd : Nat) (event : Event) :
    s.registered fd event =
      if (s.ctx fd).events.has event then some ((s.ctx fd).getEventContext event) else none :=
  rfl

theorem registered_isSome (s : Dispatch) (fd : Nat) (event : Event) :
    (s.registered fd event).isSome = (s.ctx fd).events.has event := by
  rw [registered_eq]
  split <;> simp_all

theorem schedules_iff {m : Mask} : s.schedules fd m = true ↔
    ∀ e, m.has e = true → ((s.ctx fd).getEventContext e).scheduler ≠ none := by
  unfold schedules
  constructor
  · intro h e he
    cases e <;> simp_all [Mask.has, FdContext.getEventContext, Option.isSome_iff_ne_none]
  · intro h
    have hr := h .READ
    have hw := h .WRITE
    simp only [Mask.has, FdContext.getEventContext] at hr hw
    cases hread : m.read <;> cases hwrite : m.write <;>
      simp_all [Option.isSome_iff_ne_none]

/-- What `trigger` does to a live process. -/
theorem trigger_cases (hlive : s.aborted = none) (fd : Nat) (event : Event) :
    ((s.ctx fd).events.has event = false ∧ s.trigger fd event = s.abort .triggerEvent) ∨
    ∃ c, (s.ctx fd).events.has event = true ∧ SetsSlot (s.ctx fd) c event none ∧
      c.events = (s.ctx fd).events.diff (.ofEvent event) ∧
      let x := (s.ctx fd).getEventContext event
      (x.scheduler = none ∧ s.trigger fd event = (s.setCtx fd c).abort .schedule) ∨
      (x.scheduler ≠ none ∧ s.trigger fd event = { s.setCtx fd c with
        scheduled := s.scheduled ++ [(x.scheduler, x.task)]
        pendingEventCount := pred64 s.pendingEventCount
        log := (fd, event, .scheduled x.scheduler x.task) :: s.log }) := by
  cases hev : (s.ctx fd).events.has event with
  | false =>
      refine .inl ⟨rfl, ?_⟩
      simp [trigger, hlive, FdContext.triggerEvent, hev]
  | true =>
      refine .inr ⟨_, rfl, (triggerEvent_setsSlot (if_pos hev)).1, ?_, ?_⟩
      · simp [FdContext.resetEventContext]
      · by_cases hnull : ((s.ctx fd).getEventContext event).scheduler = none
        · refine .inl ⟨hnull, ?_⟩
          simp [trigger, hlive, FdContext.triggerEvent, hev, hnull]
        · refine .inr ⟨hnull, ?_⟩
          simp [trigger, hlive, FdContext.triggerEvent, hev, hnull]

/-- What a step on the contexts of `fd` may do without adding a registration: the interest
list and the contexts of other descriptors stay, and no slot gets a new content. -/
structure Frame (s s' : Dispatch) (fd : Nat) : Prop where
  interest : s'.interest = s.interest
  others : ∀ fd', fd' ≠ fd → s'.ctx fd' = s.ctx fd'
  registered : ∀ fd' e x, s'.registered fd' e = some x → s.registered fd' e = some x

theorem Frame.refl (s : Dispatch) (fd : Nat) : Frame s s fd :=
  ⟨rfl, fun _ _ => rfl, fun _ _ _ h => h⟩

theorem Frame.trans {t u : Dispatch} (h : Frame s t fd) (h' : Frame t u fd) : Frame s u fd := by
  refine ⟨h'.interest.trans h.interest, ?_, ?_⟩
  · intro fd' hfd
    rw [h'.others fd' hfd, h.others fd' hfd]
  · intro fd' e x hx
    exact h.registered fd' e x (h'.registered fd' e x hx)

theorem trigger_frame (s : Dispatch) (fd : Nat) (event : Event) :
    Frame s (s.trigger fd event) fd := by
  cases hlive : s.aborted with
  | some site =>
      have heq : s.trigger fd event = s := by simp [trigger, hlive]
      rw [heq]
      exact Frame.refl s fd
  | none =>
      rcases trigger_cases hlive fd event with ⟨-, heq⟩ | ⟨c, -, hset, -, hcases⟩
      · rw [heq]
        exact ⟨rfl, fun _ _ => rfl, fun _ _ _ h => h⟩
      · have hctx : (s.trigger fd event).ctx = Function.update s.ctx fd c ∧
            (s.trigger fd event).interest = s.interest := by
          rcases hcases with ⟨-, heq⟩ | ⟨-, heq⟩
          · rw [heq]
            exact ⟨rfl, rfl⟩
          · rw [heq]
            exact ⟨rfl, rfl⟩
        refine ⟨hctx.2, ?_, ?_⟩
        · intro fd' hfd
          rw [hctx.1]
          exact Function.update_of_ne hfd _ _
        · intro fd' e x hx
          rw [registered_of_setsSlot hctx.1 hset] at hx
          split at hx
          · cases hx
          · exact hx

theorem triggerMask_frame (s : Dispatch) (fd : Nat) (m : Mask) :
    Frame s (s.triggerMask fd m) fd := by
  have hread : Frame s (if m.has .READ then s.trigger fd .READ else s) fd := by
    split
    · exact trigger_frame s fd .READ
    · exact Frame.refl s fd
  unfold triggerMask
  dsimp only
  split
  · exact hread.trans (trigger_frame _ fd .WRITE)
  · exact hread

/-- Triggering a registered event that has a scheduler keeps the invariant, and clears this
event only. -/
theorem trigger_inv (hinv : DispatchInv s) (hlive : s.aborted = none)
    (hev : (s.ctx fd).events.has event = true)
    (hsched : ((s.ctx fd).getEventContext event).scheduler ≠ none) :
    DispatchInv (s.trigger fd event) ∧ (s.trigger fd event).aborted = none ∧
      ((s.trigger fd event).ctx fd).events = (s.ctx fd).events.diff (.ofEvent event) ∧
      ∀ e, e ≠ event → ((s.trigger fd event).ctx fd).getEventContext e =
        (s.ctx fd).getEventContext e := by
  rcases trigger_cases hlive fd event with
    ⟨hno, -⟩ | ⟨c, -, hset, hevents, ⟨hnull, -⟩ | ⟨-, heq⟩⟩
  · simp [hev] at hno
  · exact absurd hnull hsched
  · have hreg : s.registered fd event = some ((s.ctx fd).getEventContext event) := by
      rw [registered_eq, if_pos hev]
    simp only at heq
    rw [heq]
    have hold := hinv.safe.once fd event
    rw [hreg] at hold
    refine ⟨⟨clean_of_setsSlot hinv rfl hset, ?_, ?_, once_of_setsSlot hinv rfl hset rfl
      (.scheduled hold), counted_remove hinv rfl hset hreg rfl⟩, hlive, ?_, ?_⟩
    · show s.aborted ≠ _
      simp [hlive]
    · show s.aborted ≠ _
      simp [hlive]
    · simpa [setCtx] using hevents
    · intro e he
      simpa [setCtx] using (hset.other e he).2

/-- The process has ended in `triggerEvent`. -/
def Dead (s : Dispatch) : Prop := s.aborted = some .triggerEvent ∨ s.aborted = some .schedule

theorem Dead.trigger (h : s.Dead) (fd : Nat) (event : Event) : (s.trigger fd event).Dead := by
  unfold Dead at h
  unfold Dispatch.trigger
  rcases h with h | h
  · rw [h]
    exact .inl h
  · rw [h]
    exact .inr h

/-- Triggering an event that is not registered, or has no scheduler, ends the process. -/
theorem trigger_dead (hlive : s.aborted = none)
    (hbad : (s.ctx fd).events.has event = true →
      ((s.ctx fd).getEventContext event).scheduler = none) : (s.trigger fd event).Dead := by
  rcases trigger_cases hlive fd event with
    ⟨-, heq⟩ | ⟨c, hev, -, -, ⟨-, heq⟩ | ⟨hsched, -⟩⟩
  · rw [heq]
    exact .inl rfl
  · rw [heq]
    exact .inr rfl
  · exact absurd (hbad hev) hsched

/-- Triggering a mask all of whose events are registered and have a scheduler keeps the
invariant. -/
theorem triggerMask_inv {m : Mask} (hinv : DispatchInv s) (hlive : s.aborted = none)
    (hm : m.subset (s.ctx fd).events = true) (hsched : s.schedules fd m = true) :
    DispatchInv (s.triggerMask fd m) ∧ (s.triggerMask fd m).aborted = none ∧
      ((s.triggerMask fd m).ctx fd).events = (s.ctx fd).events.diff m := by
  have hmask := Mask.subset_iff.mp hm
  have hsched := schedules_iff.mp hsched
  -- `READ` is triggered first; `WRITE` is still registered then, with its own context
  have hread : ∃ s', s' = (if m.has .READ then s.trigger fd .READ else s) ∧
      DispatchInv s' ∧ s'.aborted = none ∧
      (s'.ctx fd).events = (s.ctx fd).events.diff ⟨m.read, false⟩ ∧
      (s'.ctx fd).getEventContext .WRITE = (s.ctx fd).getEventContext .WRITE := by
    refine ⟨_, rfl, ?_⟩
    cases hr : m.has .READ with
    | true =>
        obtain ⟨h1, h2, h3, h4⟩ := trigger_inv hinv hlive (hmask .READ hr) (hsched .READ hr)
        have hr' : m.read = true := hr
        rw [hr']
        exact ⟨h1, h2, h3, h4 .WRITE (by decide)⟩
    | false =>
        have hr' : m.read = false := hr
        refine ⟨hinv, hlive, ?_, rfl⟩
        simp [hr', Mask.diff]
  obtain ⟨s', heq, hinv', hlive', hev', hwrite⟩ := hread
  have hsplit : s.triggerMask fd m = if m.has .WRITE then s'.trigger fd .WRITE else s' := by
    rw [heq]
    rfl
  rw [hsplit]
  cases hw : m.has .WRITE with
  | true =>
      have hw' : m.write = true := hw
      have hreg : (s'.ctx fd).events.has .WRITE = true := by
        rw [hev']
        have := hmask .WRITE hw
        simpa [Mask.has, Mask.diff] using this
      obtain ⟨h1, h2, h3, -⟩ := trigger_inv hinv' hlive' hreg (by rw [hwrite]; exact hsched _ hw)
      refine ⟨h1, h2, ?_⟩
      show ((s'.trigger fd .WRITE).ctx fd).events = _
      rw [h3, hev']
      simp [Mask.diff, Mask.ofEvent, hw']
  | false =>
      have hw' : m.write = false := hw
      refine ⟨hinv', hlive', ?_⟩
      show (s'.ctx fd).events = _
      rw [hev']
      simp [Mask.diff, hw']

/-- Triggering any other mask ends the process. -/
theorem triggerMask_dead {m : Mask} (hinv : DispatchInv s) (hlive : s.aborted = none)
    (hm : ¬(m.subset (s.ctx fd).events = true ∧ s.schedules fd m = true)) :
    (s.triggerMask fd m).Dead := by
  have hrest : ∀ t : Dispatch, t.Dead →
      (if m.has .WRITE then t.trigger fd .WRITE else t).Dead := by
    intro t ht
    split
    · exact ht.trigger fd .WRITE
    · exact ht
  -- an event of the mask that is not registered or has no scheduler
  obtain ⟨e, he, hbad⟩ : ∃ e, m.has e = true ∧ ((s.ctx fd).events.has e = true →
      ((s.ctx fd).getEventContext e).scheduler = none) := by
    by_contra hno
    push Not at hno
    exact hm ⟨Mask.subset_iff.mpr fun e he => (hno e he).1,
      schedules_iff.mpr fun e he => (hno e he).2⟩
  unfold triggerMask
  dsimp only
  by_cases hr : m.has .READ = true
  · rw [if_pos hr]
    by_cases hread : (s.ctx fd).events.has .READ = true →
        ((s.ctx fd).getEventContext .READ).scheduler = none
    · exact hrest _ (trigger_dead hlive hread)
    · -- `READ` goes through, so the event is `WRITE`
      obtain ⟨hev, hsched⟩ := Classical.not_imp.mp hread
      obtain ⟨-, hlive', hev', hother⟩ := trigger_inv hinv hlive hev hsched
      cases e with
      | READ => exact absurd hbad hread
      | WRITE =>
          rw [if_pos he]
          refine trigger_dead hlive' ?_
          rw [hev', hother .WRITE (by decide)]
          simpa using hbad
  · rw [if_neg hr]
    cases e with
    | READ => exact absurd he hr
    | WRITE =>
        rw [if_pos he]
        exact trigger_dead hlive hbad

theorem setInterest_inv (hinv : DispatchInv s) (fd : Nat) (m : Option Mask) :
    DispatchInv (s.setInterest fd m) :=
  hinv.of_eq rfl rfl rfl hinv.safe.noAbort hinv.safe.noNull

theorem ctlRemove_some {s' : Dispatch} {removed : Mask} {ok : Bool}
    (h : s.ctlRemove fd removed ok = some s') : ∃ m, s' = s.setInterest fd m := by
  unfold ctlRemove at h
  rw [Option.map_eq_some_iff] at h
  obtain ⟨m, -, rfl⟩ := h
  exact ⟨m, rfl⟩

/-- The change goes through exactly when there is an entry and the kernel accepts it. -/
theorem ctlRemove_isSome (s : Dispatch) (fd : Nat) (removed : Mask) (ok : Bool) :
    (s.ctlRemove fd removed ok).isSome = (ok && (s.interest fd).isSome) := by
  unfold ctlRemove
  by_cases hleft : (s.ctx fd).events.diff removed = .NONE
  · cases hi : s.interest fd <;> cases ok <;> simp [hleft, epollCtl]
  · cases hi : s.interest fd <;> cases ok <;> simp [hleft, epollCtl]

/-- A slot gets a new content only from `addEvent`. -/
theorem addEvent_registered {x y : EventContext} {ok : Bool} {fd' : Nat} {e : Event}
    (h : (s.addEvent fd event x ok).2.registered fd' e = some y) :
    s.registered fd' e = some y ∨ (fd' = fd ∧ e = event ∧ y = x) := by
  unfold addEvent at h
  dsimp only at h
  split at h
  · exact .inl h
  · split at h
    · exact .inl h
    · split at h
      · rw [registered_of_setsSlot (s := s) rfl (add_setsSlot (s.ctx fd) event x)] at h
        split at h
        · rename_i hkey
          cases h
          exact .inr ⟨hkey.1, hkey.2, rfl⟩
        · exact .inl h
      · exact .inl h

theorem delEvent_registered {y : EventContext} {ok : Bool} {fd' : Nat} {e : Event}
    (h : (s.delEvent fd event ok).2.registered fd' e = some y) : s.registered fd' e = some y := by
  unfold delEvent at h
  dsimp only at h
  split at h
  · split at h
    · exact h
    · rename_i s' hctl
      obtain ⟨m, rfl⟩ := ctlRemove_some hctl
      rw [registered_of_setsSlot (s := s) rfl (del_setsSlot (s.ctx fd) event)] at h
      split at h
      · cases h
      · exact h
  · exact h

theorem cancelEvent_registered {y : EventContext} {ok : Bool} {fd' : Nat} {e : Event}
    (h : (s.cancelEvent fd event ok).2.registered fd' e = some y) :
    s.registered fd' e = some y := by
  unfold cancelEvent at h
  split at h
  · split at h
    · exact h
    · rename_i s' hctl
      obtain ⟨m, rfl⟩ := ctlRemove_some hctl
      exact (trigger_frame (s.setInterest fd m) fd event).registered fd' e y h
  · exact h

/-- A cancellation that the kernel accepts leaves nothing registered. -/
theorem cancelEvent_clears (hlive : s.aborted = none) (hentry : (s.interest fd).isSome = true) :
    (s.cancelEvent fd event true).2.registered fd event = none := by
  unfold cancelEvent
  by_cases hev : (s.ctx fd).events.has event = true
  · have hctl := ctlRemove_isSome s fd (.ofEvent event) true
    rw [hentry, Bool.and_true, Option.isSome_iff_exists] at hctl
    obtain ⟨s', hctl⟩ := hctl
    rw [if_pos hev, hctl]
    obtain ⟨m, rfl⟩ := ctlRemove_some hctl
    show ((s.setInterest fd m).trigger fd event).registered fd event = none
    rcases trigger_cases (s := s.setInterest fd m) hlive fd event with
      ⟨hno, -⟩ | ⟨c, -, hset, -, ⟨-, heq⟩ | ⟨-, heq⟩⟩
    · rw [show (s.setInterest fd m).ctx = s.ctx from rfl, hev] at hno
      cases hno
    · rw [heq, registered_of_setsSlot (s := s.setInterest fd m) rfl hset, if_pos ⟨rfl, rfl⟩]
    · rw [heq, registered_of_setsSlot (s := s.setInterest fd m) rfl hset, if_pos ⟨rfl, rfl⟩]
  · rw [if_neg hev, registered_eq, if_neg hev]

theorem cancelAll_registered {y : EventContext} {ok : Bool} {fd' : Nat} {e : Event}
    (h : (s.cancelAll fd ok).2.registered fd' e = some y) : s.registered fd' e = some y := by
  unfold cancelAll at h
  dsimp only at h
  split at h
  · exact h
  · split at h
    · exact h
    · rename_i i _
      have hframe := triggerMask_frame (s.setInterest fd i) fd (s.ctx fd).events
      split at h <;> exact hframe.registered fd' e y h

theorem handleReport_registered {r : Report} {y : EventContext} {ok : Bool} {fd' : Nat}
    {e : Event} (h : (s.handleReport r ok).registered fd' e = some y) :
    s.registered fd' e = some y := by
  unfold handleReport at h
  dsimp only at h
  split at h
  · exact h
  · split at h
    · exact h
    · rename_i s' hctl
      obtain ⟨m, rfl⟩ := ctlRemove_some hctl
      exact (triggerMask_frame (s.setInterest r.fd m) r.fd _).registered fd' e y h

theorem addEvent_inv (hinv : DispatchInv s) (x : EventContext) (ok : Bool) :
    DispatchInv (s.addEvent fd event x ok).2 := by
  unfold addEvent
  dsimp only
  split
  · exact hinv.of_eq rfl rfl rfl (by simp [abort]) (by simp [abort])
  · rename_i hev
    have hreg : s.registered fd event = none := by
      rw [registered_eq, if_neg hev]
    split
    · exact hinv
    · rw [if_pos (hinv.clean fd event hreg)]
      have hset := add_setsSlot (s.ctx fd) event x
      have hold := hinv.safe.once fd event
      rw [hreg] at hold
      exact ⟨clean_of_setsSlot hinv rfl hset, hinv.safe.noAbort, hinv.safe.noNull,
        once_of_setsSlot hinv rfl hset rfl (.added hold), counted_add hinv rfl hset hreg rfl⟩

theorem delEvent_inv (hinv : DispatchInv s) (ok : Bool) :
    DispatchInv (s.delEvent fd event ok).2 := by
  unfold delEvent
  dsimp only
  split
  · rename_i hev
    split
    · exact hinv
    · rename_i s' hctl
      obtain ⟨m, rfl⟩ := ctlRemove_some hctl
      have hreg : s.registered fd event = some ((s.ctx fd).getEventContext event) := by
        rw [registered_eq, if_pos hev]
      have hset := del_setsSlot (s.ctx fd) event
      have hold := hinv.safe.once fd event
      rw [hreg] at hold
      exact ⟨clean_of_setsSlot hinv rfl hset, hinv.safe.noAbort, hinv.safe.noNull,
        once_of_setsSlot hinv rfl hset rfl (.deleted hold), counted_remove hinv rfl hset hreg rfl⟩
  · exact hinv

theorem ctlRemove_eq_some (s : Dispatch) (fd : Nat) (removed : Mask)
    (hentry : (s.interest fd).isSome = true) :
    ∃ m, s.ctlRemove fd removed true = some (s.setInterest fd m) := by
  have hctl := ctlRemove_isSome s fd removed true
  rw [hentry, Bool.and_true, Option.isSome_iff_exists] at hctl
  obtain ⟨s', hctl⟩ := hctl
  obtain ⟨m, rfl⟩ := ctlRemove_some hctl
  exact ⟨m, hctl⟩

/-- The kernel refuses the change of an entry. -/
theorem refused_iff {ok : Bool} :
    (ok = false ∨ s.interest fd = none) ↔ ¬(ok = true ∧ (s.interest fd).isSome = true) := by
  cases ok <;> cases s.interest fd <;> simp

theorem cancelEvent_inv (hinv : DispatchInv s) (hlive : s.aborted = none) (ok : Bool)
    (hg : SafeTrigger s (.cancelEvent fd event ok)) :
    DispatchInv (s.cancelEvent fd event ok).2 := by
  unfold cancelEvent
  split
  · rename_i hev
    split
    · exact hinv
    · rename_i s' hctl
      have hdone := ctlRemove_isSome s fd (.ofEvent event) ok
      rw [hctl] at hdone
      obtain ⟨m, rfl⟩ := ctlRemove_some hctl
      have hsched : s.schedules fd (.ofEvent event) = true := by
        refine (hg hev).resolve_right fun hrefused => ?_
        exact refused_iff.mp hrefused (Bool.and_eq_true_iff.mp hdone.symm)
      exact (trigger_inv (setInterest_inv hinv fd m) hlive hev
        (schedules_iff.mp hsched event (by simp))).1
  · exact hinv

/-- A cancelled event without a scheduler ends the process. -/
theorem cancelEvent_dead (hlive : s.aborted = none) {ok : Bool}
    (hg : ¬ SafeTrigger s (.cancelEvent fd event ok)) : (s.cancelEvent fd event ok).2.Dead := by
  obtain ⟨hev, hbad⟩ := Classical.not_imp.mp hg
  obtain ⟨hsched, hrefused⟩ := not_or.mp hbad
  obtain ⟨rfl, hentry⟩ := not_not.mp (refused_iff.not.mp hrefused)
  obtain ⟨m, hctl⟩ := ctlRemove_eq_some s fd (.ofEvent event) hentry
  unfold cancelEvent
  rw [if_pos hev, hctl]
  refine trigger_dead hlive fun _ => ?_
  by_contra hne
  refine hsched (schedules_iff.mpr fun e he => ?_)
  rw [Mask.has_ofEvent, decide_eq_true_eq] at he
  exact he ▸ hne

/-- `EPOLL_CTL_DEL` goes through exactly when there is an entry and the kernel accepts it. -/
theorem epollCtl_DEL (s : Dispatch) (fd : Nat) (ok : Bool) :
    epollCtl (s.interest fd) .DEL .NONE ok =
      if ok = true ∧ (s.interest fd).isSome = true then some none else none := by
  cases ok <;> cases s.interest fd <;> rfl

theorem cancelAll_inv (hinv : DispatchInv s) (hlive : s.aborted = none) (ok : Bool)
    (hg : SafeTrigger s (.cancelAll fd ok)) : DispatchInv (s.cancelAll fd ok).2 := by
  unfold cancelAll
  dsimp only
  split
  · exact hinv
  · rw [epollCtl_DEL]
    split
    · exact hinv
    · rename_i i hctl
      split at hctl
      · rename_i haccept
        have hsched : s.schedules fd (s.ctx fd).events = true :=
          hg.resolve_right fun hrefused => refused_iff.mp hrefused haccept
        have hself : (s.ctx fd).events.subset ((s.setInterest fd i).ctx fd).events = true :=
          Mask.subset_iff.mpr fun _ h => h
        obtain ⟨h1, -, h3⟩ := triggerMask_inv (setInterest_inv hinv fd i) hlive hself hsched
        have hnone : (((s.setInterest fd i).triggerMask fd (s.ctx fd).events).ctx fd).events =
            .NONE := by
          rw [h3, Mask.eq_NONE_iff]
          intro e
          simp [setInterest]
        rw [if_pos (.inl hnone)]
        exact h1
      · cases hctl

theorem Dead.isSome (h : s.Dead) : s.aborted.isSome = true := by
  rcases h with h | h
  · rw [h]
    rfl
  · rw [h]
    rfl

/-- Cancelled events one of which has no scheduler end the process. -/
theorem cancelAll_dead (hinv : DispatchInv s) (hlive : s.aborted = none) {ok : Bool}
    (hg : ¬ SafeTrigger s (.cancelAll fd ok)) : (s.cancelAll fd ok).2.Dead := by
  obtain ⟨hsched, hrefused⟩ := not_or.mp hg
  have haccept := not_not.mp (refused_iff.not.mp hrefused)
  have hne : (s.ctx fd).events ≠ .NONE := by
    intro hnone
    refine hsched (schedules_iff.mpr fun e he => ?_)
    rw [hnone, Mask.has_NONE] at he
    cases he
  have hdead : ((s.setInterest fd none).triggerMask fd (s.ctx fd).events).Dead :=
    triggerMask_dead (setInterest_inv hinv fd none) hlive fun h => hsched h.2
  unfold cancelAll
  dsimp only
  rw [if_neg hne, epollCtl_DEL, if_pos haccept]
  dsimp only
  rw [if_pos (.inr hdead.isSome)]
  exact hdead

/-- What triggering the events of a report needs. -/
def triggers (s : Dispatch) (r : Report) : Bool :=
  (realEvents (s.ctx r.fd) r).subset (s.ctx r.fd).events &&
    s.schedules r.fd (realEvents (s.ctx r.fd) r)

/-- A report is stale when some of its bits are no longer registered, or go to no scheduler,
while its handling gets past the first test and the `epoll_ctl` call. -/
def stale (s : Dispatch) (r : Report) (ok : Bool) : Bool :=
  !s.triggers r && decide ((s.ctx r.fd).events.inter (realEvents (s.ctx r.fd) r) ≠ .NONE) &&
    (ok && (s.interest r.fd).isSome)

theorem handleReport_inv (hinv : DispatchInv s) (hlive : s.aborted = none) (r : Report)
    (ok : Bool) (h : s.stale r ok = false) : DispatchInv (s.handleReport r ok) := by
  unfold handleReport
  dsimp only
  split
  · exact hinv
  · rename_i hsel
    split
    · exact hinv
    · rename_i s' hctl
      have hsome : (ok && (s.interest r.fd).isSome) = true := by
        rw [← ctlRemove_isSome s r.fd (realEvents (s.ctx r.fd) r) ok, hctl]
        rfl
      have htriggers : s.triggers r = true := by
        simpa [stale, hsel, hsome] using h
      obtain ⟨hsub, hsched⟩ := Bool.and_eq_true_iff.mp htriggers
      obtain ⟨m, rfl⟩ := ctlRemove_some hctl
      exact (triggerMask_inv (setInterest_inv hinv r.fd m) hlive hsub hsched).1

theorem handleReport_dead (hinv : DispatchInv s) (hlive : s.aborted = none) (r : Report)
    (ok : Bool) (h : s.stale r ok = true) : (s.handleReport r ok).Dead := by
  simp only [stale, Bool.and_eq_true, Bool.not_eq_true', decide_eq_true_eq] at h
  obtain ⟨⟨htriggers, hsel⟩, rfl, hentry⟩ := h
  obtain ⟨m, hctl⟩ := ctlRemove_eq_some s r.fd (realEvents (s.ctx r.fd) r) hentry
  unfold handleReport
  dsimp only
  rw [if_neg hsel, hctl]
  refine triggerMask_dead (setInterest_inv hinv r.fd m) hlive fun hboth => ?_
  exact Bool.eq_false_iff.mp htriggers (Bool.and_eq_true_iff.mpr hboth)

/-- `SafeTrigger` in terms of the mask the handling works with: adding the registered
events to the report on an error does not change which of its bits are missing. -/
theorem stale_eq_false_iff (s : Dispatch) (r : Report) (ok : Bool) :
    s.stale r ok = false ↔
      (r.bits.subset (s.ctx r.fd).events = true ∧
        s.schedules r.fd (realEvents (s.ctx r.fd) r) = true) ∨
      (r.bits.inter (s.ctx r.fd).events = .NONE ∧
        (r.errHup = true → (s.ctx r.fd).events = .NONE)) ∨
      ok = false ∨ s.interest r.fd = none := by
  have hsub : (realEvents (s.ctx r.fd) r).subset (s.ctx r.fd).events =
      r.bits.subset (s.ctx r.fd).events := by
    unfold realEvents
    split
    · rw [Bool.eq_iff_iff, Mask.subset_iff, Mask.subset_iff]
      constructor
      · intro h e he
        exact h e (by simp [he])
      · intro h e he
        rw [Mask.has_union, Bool.or_eq_true] at he
        exact he.elim (h e) id
    · rfl
  have hsel : (s.ctx r.fd).events.inter (realEvents (s.ctx r.fd) r) = .NONE ↔
      r.bits.inter (s.ctx r.fd).events = .NONE ∧
        (r.errHup = true → (s.ctx r.fd).events = .NONE) := by
    simp only [Mask.eq_NONE_iff, realEvents]
    cases r.errHup with
    | false => simp [Bool.and_comm]
    | true =>
        simp only [if_true, Mask.has_inter, Mask.has_union, forall_const]
        constructor
        · intro h
          refine ⟨fun e => ?_, fun e => ?_⟩
          · have := h e
            grind
          · have := h e
            grind
        · intro h e
          simp [h.2 e]
  have hctl : (ok && (s.interest r.fd).isSome) = false ↔ ok = false ∨ s.interest r.fd = none := by
    cases ok <;> cases s.interest r.fd <;> simp
  unfold stale triggers
  rw [Bool.and_eq_false_iff, Bool.and_eq_false_iff, hsub, hctl, Bool.not_eq_false',
    Bool.and_eq_true_iff, decide_eq_false_iff_not, not_not, hsel, or_assoc]

end Dispatch

/-! ## Runs -/

/-- A lock section that starts in a safe live state and meets the condition ends in one. -/
theorem dispatchStep_inv {s s' : Dispatch} {a : DispatchAct} (hinv : DispatchInv s)
    (hg : SafeTrigger s a) (hs : dispatchStep s a = some s') : DispatchInv s' := by
  unfold dispatchStep at hs
  split at hs
  · cases hs
  · rename_i hlive
    have hlive : s.aborted = none := by simpa using hlive
    cases a with
    | addEvent fd event scheduler cb current ok =>
        cases hs
        exact Dispatch.addEvent_inv hinv _ ok
    | delEvent fd event ok =>
        cases hs
        exact Dispatch.delEvent_inv hinv ok
    | cancelEvent fd event ok =>
        cases hs
        exact Dispatch.cancelEvent_inv hinv hlive ok hg
    | cancelAll fd ok =>
        cases hs
        exact Dispatch.cancelAll_inv hinv hlive ok hg
    | epollWait thread result =>
        dsimp only at hs
        split at hs
        · cases hs
          exact hinv.of_eq rfl rfl rfl hinv.safe.noAbort hinv.safe.noNull
        · cases hs
    | handle thread ok =>
        dsimp only at hs
        split at hs
        · cases hs
        · rename_i r rest hrep
          cases hs
          have hpop : DispatchInv { s with reports := Function.update s.reports thread rest } :=
            hinv.of_eq rfl rfl rfl hinv.safe.noAbort hinv.safe.noNull
          apply Dispatch.handleReport_inv hpop hlive
          rw [Dispatch.stale_eq_false_iff]
          exact hg r (by rw [hrep]; rfl)
    | closed fd =>
        cases hs
        exact Dispatch.setInterest_inv hinv fd none

/-- A registration that a step brings is the one its `addEvent` makes. -/
theorem dispatchStep_registered {s s' : Dispatch} {a : DispatchAct}
    (hs : dispatchStep s a = some s') {fd : Nat} {e : Event} {x : EventContext}
    (hx : s'.registered fd e = some x) :
    s.registered fd e = some x ∨ ∃ scheduler cb current ok,
      a = .addEvent fd e scheduler cb current ok ∧
      x = Dispatch.eventContext scheduler cb current := by
  unfold dispatchStep at hs
  split at hs
  · cases hs
  · cases a with
    | addEvent fd' event scheduler cb current ok =>
        cases hs
        rcases Dispatch.addEvent_registered hx with h | ⟨rfl, rfl, rfl⟩
        · exact .inl h
        · exact .inr ⟨scheduler, cb, current, ok, rfl, rfl⟩
    | delEvent fd' event ok =>
        cases hs
        exact .inl (Dispatch.delEvent_registered hx)
    | cancelEvent fd' event ok =>
        cases hs
        exact .inl (Dispatch.cancelEvent_registered hx)
    | cancelAll fd' ok =>
        cases hs
        exact .inl (Dispatch.cancelAll_registered hx)
    | epollWait thread result =>
        dsimp only at hs
        split at hs
        · cases hs
          exact .inl hx
        · cases hs
    | handle thread ok =>
        dsimp only at hs
        split at hs
        · cases hs
        · rename_i r rest hrep
          cases hs
          exact .inl (Dispatch.handleReport_registered
            (s := { s with reports := Function.update s.reports thread rest }) hx)
    | closed fd' =>
        cases hs
        exact .inl hx

theorem dispatch_inductive : dispatchSys.Inductive SafeTrigger DispatchInv where
  init := by
    rintro s rfl
    exact start_inv_dispatch
  step := fun _ _ _ hinv hg hs => dispatchStep_inv hinv hg hs

theorem Dispatch.Dead.not_safe {s : Dispatch} (h : s.Dead) : ¬ DispatchSafe s :=
  fun hsafe => h.elim hsafe.noAbort hsafe.noNull

/-- Any other step does end the process. -/
theorem safeTrigger_of_safe {s s' : Dispatch} {a : DispatchAct} (hinv : DispatchInv s)
    (hs : dispatchStep s a = some s') (hsafe : DispatchSafe s') : SafeTrigger s a := by
  unfold dispatchStep at hs
  split at hs
  · cases hs
  · rename_i hlive
    have hlive : s.aborted = none := by simpa using hlive
    cases a with
    | cancelEvent fd event ok =>
        cases hs
        by_contra hbad
        exact (Dispatch.cancelEvent_dead hlive hbad).not_safe hsafe
    | cancelAll fd ok =>
        cases hs
        by_contra hbad
        exact (Dispatch.cancelAll_dead hinv hlive hbad).not_safe hsafe
    | handle thread ok =>
        intro r hhead
        obtain ⟨rest, hrep⟩ := List.head?_eq_some_iff.mp hhead
        simp only [hrep, Option.some.injEq] at hs
        rw [← Dispatch.stale_eq_false_iff]
        by_contra hstale
        rw [Bool.not_eq_false] at hstale
        have hdead := Dispatch.handleReport_dead
          (s := { s with reports := Function.update s.reports thread rest })
          (hinv.of_eq rfl rfl rfl hinv.safe.noAbort hinv.safe.noNull) hlive r ok hstale
        rw [hs] at hdead
        exact hdead.not_safe hsafe
    | _ => trivial

/-- In a run whose steps meet the condition, every `triggerEvent` is for a registered event
with a scheduler, every registration ends once, by its own task or by `delEvent`, and
`m_pendingEventCount` is the number of registrations outstanding; and the first step that
does not meet it ends the process in `triggerEvent`. -/
theorem dispatch_safe {s : Dispatch} (h : dispatchSys.Reaches SafeTrigger s) :
    DispatchSafe s ∧ ∀ a s', dispatchStep s a = some s' →
      (DispatchSafe s' ↔ SafeTrigger s a) :=
  have hinv := dispatch_inductive.invariant h
  ⟨hinv.safe, fun _ _ hs =>
    ⟨safeTrigger_of_safe hinv hs, fun hg => (dispatchStep_inv hinv hg hs).safe⟩⟩

/-- Both events of descriptor 5 are registered and reported; one report is handled while both
are there, and `WRITE` is registered again, cancelled and deleted. -/
def handledTrace : List DispatchAct :=
  [.addEvent 5 .READ (some 0) (some 1) 7 true, .addEvent 5 .WRITE (some 0) none 7 true,
    .epollWait 0 [⟨5, ⟨true, true⟩, false⟩], .handle 0 true,
    .addEvent 5 .WRITE (some 0) none 7 true, .cancelEvent 5 .WRITE true,
    .addEvent 5 .READ (some 0) (some 1) 7 true, .delEvent 5 .READ true]

theorem dispatch_safe_handled : ∃ s, dispatchSys.Reaches SafeTrigger s ∧ DispatchSafe s ∧
    s.scheduled = [(some 0, .ofCb 1 none), (some 0, .ofFiber 7 none), (some 0, .ofFiber 7 none)] ∧
    ∀ s', dispatchStep s (.cancelAll 5 true) = some s' →
      (DispatchSafe s' ↔ SafeTrigger s (.cancelAll 5 true)) := by
  obtain ⟨s, hs, hsched⟩ := TSys.exists_reaches (M := dispatchSys) (G := SafeTrigger)
    (g := fun s a => decide (SafeTrigger s a)) (fun _ _ => of_decide_eq_true) (s := .start)
    (l := handledTrace)
    (p := fun s => decide (s.scheduled =
      [(some 0, .ofCb 1 none), (some 0, .ofFiber 7 none), (some 0, .ofFiber 7 none)]))
    rfl (by decide)
  obtain ⟨hsafe, hexact⟩ := dispatch_safe hs
  exact ⟨s, hs, hsafe, of_decide_eq_true hsched, hexact _⟩

/-- Both events of descriptor 5 are registered and reported; before the report is handled
another thread cancels `WRITE`. -/
def staleTrace : List DispatchAct :=
  [.addEvent 5 .READ (some 0) (some 1) 7 true, .addEvent 5 .WRITE (some 0) (some 2) 7 true,
    .epollWait 0 [⟨5, ⟨true, true⟩, false⟩], .cancelEvent 5 .WRITE true, .handle 0 true]

/-- `triggerEvent` is called for an event that is not registered. -/
theorem stale_report_aborts : ∃ s, dispatchSys.Reachable s ∧ ¬ DispatchSafe s := by
  have hrun : (dispatchSys.exec (fun _ _ => true) .start staleTrace).map
      (fun s => decide (s.aborted = some .triggerEvent)) = some true := by
    decide
  obtain ⟨s, hs, habort⟩ := TSys.exists_reachable (M := dispatchSys) rfl hrun
  exact ⟨s, hs, fun hsafe => hsafe.noAbort (by simpa using habort)⟩

/-- A thread outside every scheduler adds an event; its report ends the process. -/
example : (dispatchSys.exec (fun _ _ => true) .start
    [.addEvent 5 .READ none (some 1) 7 true, .epollWait 0 [⟨5, ⟨true, false⟩, false⟩],
      .handle 0 true]).map Dispatch.aborted = some (some .schedule) := by decide

end Gxh.IOManager
