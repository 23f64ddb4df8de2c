import Gxh.IOManager.Dispatch

/-!
# The interest list as a mirror of the contexts

One thread calls `addEvent`, `delEvent`, `cancelEvent` and `cancelAll` and handles the
reports of `epoll_wait` in `idle`, and `epoll_ctl` may fail at any call.

* `Dispatch.ctlCall` is the `epoll_ctl` call an operation makes;
* `Rewrites` says once what an operation does when that call goes through;
* `EpollMirror` is what holds between any two operations.
-/

namespace Gxh.IOManager

/-- An operation, with the outcome of its `epoll_ctl` call. The thread runs `idle`, so it
belongs to a scheduler. -/
inductive SoloAct
  | addEvent (fd : Nat) (event : Event) (scheduler : Nat) (cb : Option CbId)
      (current : FiberId) (ok : Bool)
  | delEvent (fd : Nat) (event : Event) (ok : Bool)
  | cancelEvent (fd : Nat) (event : Event) (ok : Bool)
  | cancelAll (fd : Nat) (ok : Bool)
  | dispatch (r : Report) (ok : Bool)
  deriving DecidableEq, Repr

def SoloAct.ok : SoloAct → Bool
  | .addEvent _ _ _ _ _ ok | .delEvent _ _ ok | .cancelEvent _ _ ok | .cancelAll _ ok
  | .dispatch _ ok => ok

/-- One operation. Events are added when they are not registered, and the bits of a report
are in the current interest mask. After a failed assertion there is no step. -/
def soloStep (s : Dispatch) (a : SoloAct) : Option Dispatch :=
  if s.aborted.isSome then none
  else
    match a with
    | .addEvent fd event scheduler cb current ok =>
        if (s.ctx fd).events.has event then none
        else some (s.addEvent fd event (Dispatch.eventContext (some scheduler) cb current) ok).2
    | .delEvent fd event ok => some (s.delEvent fd event ok).2
    | .cancelEvent fd event ok => some (s.cancelEvent fd event ok).2
    | .cancelAll fd ok => some (s.cancelAll fd ok).2
    | .dispatch r ok =>
        if r.bits.subset ((s.interest r.fd).getD .NONE) then some (s.handleReport r ok) else none

def soloSys : TSys Dispatch SoloAct where
  init := fun s => s = .start
  step := soloStep

/-! ## The call of each operation -/

/-- The arguments of an `epoll_ctl` call. -/
structure CtlCall where
  fd : Nat
  op : EpollCtlOp
  events : Mask
  deriving DecidableEq, Repr

/-- The entry of a descriptor with this `events` field; there is none for the empty mask. -/
def entryOf (events : Mask) : Option Mask := if events = .NONE then none else some events

/-- The call that puts an event to the registered ones. -/
def Dispatch.addCall (s : Dispatch) (fd : Nat) (event : Event) : CtlCall :=
  let c := s.ctx fd
  ⟨fd, if c.events = .NONE then .ADD else .MOD, c.events.union (.ofEvent event)⟩

/-- The call that takes `removed` out of the registered events. -/
def Dispatch.removeCall (s : Dispatch) (fd : Nat) (removed : Mask) : CtlCall :=
  let left := (s.ctx fd).events.diff removed
  ⟨fd, if left = .NONE then .DEL else .MOD, left⟩

/-- The `epoll_ctl` call an operation makes, if it makes one. -/
def Dispatch.ctlCall (s : Dispatch) : SoloAct → Option CtlCall
  | .addEvent fd event _ _ _ _ =>
      if (s.ctx fd).events.has event then none else some (s.addCall fd event)
  | .delEvent fd event _ | .cancelEvent fd event _ =>
      if (s.ctx fd).events.has event then some (s.removeCall fd (.ofEvent event)) else none
  | .cancelAll fd _ => if (s.ctx fd).events = .NONE then none else some ⟨fd, .DEL, .NONE⟩
  | .dispatch r _ =>
      let real := Dispatch.realEvents (s.ctx r.fd) r
      if (s.ctx r.fd).events.inter real = .NONE then none else some (s.removeCall r.fd real)

/-- The operation that brings the entry of a descriptor to `events`. -/
def requiredOp (entry : Option Mask) (events : Mask) : EpollCtlOp :=
  match entry with
  | none => .ADD
  | some _ => if events = .NONE then .DEL else .MOD

/-- What the interest list is after the call. -/
def Dispatch.ctlEffect (s : Dispatch) (call : Option CtlCall) (ok : Bool) : Nat → Option Mask :=
  match call with
  | none => s.interest
  | some c => if ok then Function.update s.interest c.fd (entryOf c.events) else s.interest

/-! ## What holds between two operations -/

/-- A fiber or a callback is stored. -/
def EventContext.filled (x : EventContext) : Prop := x.fiber.isSome = true ∨ x.cb.isSome = true

theorem eventContext_filled (scheduler : Option Nat) (cb : Option CbId) (current : FiberId) :
    (Dispatch.eventContext scheduler cb current).filled := by
  cases cb with
  | none => exact .inl rfl
  | some c => exact .inr rfl

structure EpollMirror (s : Dispatch) : Prop where
  live : s.aborted = none
  /-- `m_pendingEventCount` is the number of set bits over all contexts -/
  counted : ∃ F : Finset (Nat × Event),
    (∀ fd e, (fd, e) ∈ F ↔ (s.ctx fd).events.has e = true) ∧ s.pendingEventCount = F.card
  filled : ∀ fd e, (s.ctx fd).events.has e = true → ((s.ctx fd).getEventContext e).filled
  empty : ∀ fd e, (s.ctx fd).events.has e = false → (s.ctx fd).getEventContext e = .empty
  kernel : ∀ fd, s.interest fd = entryOf (s.ctx fd).events

/-- The invariant: what `Dispatch` keeps for any number of threads, and the mirror. -/
structure MirrorInv (s : Dispatch) : Prop where
  inv : DispatchInv s
  live : s.aborted = none
  filled : ∀ fd e x, s.registered fd e = some x → x.filled ∧ x.scheduler ≠ none
  kernel : ∀ fd, s.interest fd = entryOf (s.ctx fd).events

theorem MirrorInv.mirror {s : Dispatch} (h : MirrorInv s) : EpollMirror s := by
  refine ⟨h.live, ?_, ?_, ?_, h.kernel⟩
  · obtain ⟨F, hF, hcard⟩ := h.inv.safe.counted
    refine ⟨F, ?_, hcard⟩
    intro fd e
    rw [hF, Dispatch.registered_isSome]
  · intro fd e he
    exact (h.filled fd e _ (by rw [Dispatch.registered_eq, if_pos he])).1
  · intro fd e he
    refine h.inv.clean fd e ?_
    rw [Dispatch.registered_eq, he]
    rfl

/-- What an operation on `fd` does when its `epoll_ctl` call goes through. -/
structure Rewrites (s s' : Dispatch) (fd : Nat) (events : Mask) : Prop where
  inv : DispatchInv s'
  live : s'.aborted = none
  interest : s'.interest = Function.update s.interest fd (entryOf events)
  here : (s'.ctx fd).events = events
  others : ∀ fd', fd' ≠ fd → s'.ctx fd' = s.ctx fd'
  filled : ∀ fd' e x, s'.registered fd' e = some x →
    s.registered fd' e = some x ∨ x.filled ∧ x.scheduler ≠ none

theorem Rewrites.mirrorInv {s s' : Dispatch} {fd : Nat} {events : Mask} (h : MirrorInv s)
    (hr : Rewrites s s' fd events) : MirrorInv s' := by
  refine ⟨hr.inv, hr.live, ?_, ?_⟩
  · intro fd' e x hx
    exact (hr.filled fd' e x hx).elim (h.filled fd' e x) id
  · intro fd'
    rw [hr.interest]
    by_cases hfd : fd' = fd
    · subst hfd
      rw [Function.update_self, hr.here]
    · rw [Function.update_of_ne hfd, hr.others fd' hfd]
      exact h.kernel fd'

/-! ## The kernel accepts every call -/

/-- The required operation fails only when the call is made to fail. -/
theorem epollCtl_required {entry : Option Mask} {events : Mask} (ok : Bool)
    (hne : entry = none → events ≠ .NONE) :
    epollCtl entry (requiredOp entry events) events ok =
      if ok then some (entryOf events) else none := by
  cases entry with
  | none => simp [requiredOp, epollCtl, entryOf, hne rfl]
  | some m =>
      by_cases hev : events = .NONE
      · simp [requiredOp, epollCtl, entryOf, hev]
      · simp [requiredOp, epollCtl, entryOf, hev]

theorem entryOf_eq_none {events : Mask} : entryOf events = none ↔ events = .NONE := by
  unfold entryOf
  split <;> simp_all

theorem ne_NONE_of_has {m : Mask} {e : Event} (h : m.has e = true) : m ≠ .NONE := by
  rintro rfl
  simp at h

namespace MirrorInv

variable {s : Dispatch} {fd : Nat} {event : Event} (h : MirrorInv s)

include h

/-- The operation is chosen from the `events` field, which mirrors the entry. -/
theorem requiredOp_eq (fd : Nat) (events : Mask) :
    requiredOp (s.interest fd) events =
      if (s.ctx fd).events = .NONE then .ADD else if events = .NONE then .DEL else .MOD := by
  rw [h.kernel]
  unfold entryOf
  split <;> rfl

/-- Every operation chooses what the kernel requires. -/
theorem ctlCall_op {a : SoloAct} {c : CtlCall} (hc : s.ctlCall a = some c) :
    c.op = requiredOp (s.interest c.fd) c.events := by
  have remove : ∀ (fd : Nat) (removed : Mask), (s.ctx fd).events ≠ .NONE →
      (s.removeCall fd removed).op =
        requiredOp (s.interest fd) (s.removeCall fd removed).events := by
    intro fd removed hne
    rw [h.requiredOp_eq, if_neg hne]
    rfl
  cases a with
  | addEvent fd event scheduler cb current ok =>
      simp only [Dispatch.ctlCall] at hc
      split at hc
      · cases hc
      · cases hc
        have hne : (s.ctx fd).events.union (.ofEvent event) ≠ .NONE :=
          ne_NONE_of_has (e := event) (by simp)
        show (if (s.ctx fd).events = .NONE then EpollCtlOp.ADD else .MOD) =
          requiredOp (s.interest fd) ((s.ctx fd).events.union (.ofEvent event))
        rw [h.requiredOp_eq, if_neg hne]
  | delEvent fd event ok | cancelEvent fd event ok =>
      simp only [Dispatch.ctlCall] at hc
      split at hc
      · rename_i hev
        cases hc
        exact remove fd _ (ne_NONE_of_has hev)
      · cases hc
  | cancelAll fd ok =>
      simp only [Dispatch.ctlCall] at hc
      split at hc
      · cases hc
      · rename_i hne
        cases hc
        rw [h.requiredOp_eq, if_neg hne, if_pos rfl]
  | dispatch r ok =>
      simp only [Dispatch.ctlCall] at hc
      split at hc
      · cases hc
      · rename_i hsel
        cases hc
        refine remove r.fd _ ?_
        intro hnone
        exact hsel (by rw [hnone]; rfl)

/-- Taking registered events out succeeds unless the call is made to fail. -/
theorem ctlRemove_eq (hne : (s.ctx fd).events ≠ .NONE) (removed : Mask) (ok : Bool) :
    s.ctlRemove fd removed ok =
      if ok then some (s.setInterest fd (entryOf ((s.ctx fd).events.diff removed))) else none := by
  have hentry : s.interest fd = none → (s.ctx fd).events.diff removed ≠ .NONE := by
    intro hnone
    rw [h.kernel, entryOf_eq_none] at hnone
    exact absurd hnone hne
  have hop : (if (s.ctx fd).events.diff removed = .NONE then EpollCtlOp.DEL else .MOD) =
      requiredOp (s.interest fd) ((s.ctx fd).events.diff removed) := by
    rw [h.requiredOp_eq, if_neg hne]
  unfold Dispatch.ctlRemove
  dsimp only
  rw [hop, epollCtl_required ok hentry]
  cases ok <;> rfl

theorem schedules_of_subset {m : Mask} (hm : m.subset (s.ctx fd).events = true) :
    s.schedules fd m = true := by
  refine Dispatch.schedules_iff.mpr fun e he => ?_
  have hreg : s.registered fd e = some ((s.ctx fd).getEventContext e) := by
    rw [Dispatch.registered_eq, if_pos (Mask.subset_iff.mp hm e he)]
  exact (h.filled fd e _ hreg).2

/-- Triggering registered events after their removal from the interest list. -/
theorem rewrites_triggerMask {m : Mask} (hm : m.subset (s.ctx fd).events = true) :
    Rewrites s ((s.setInterest fd (entryOf ((s.ctx fd).events.diff m))).triggerMask fd m) fd
      ((s.ctx fd).events.diff m) := by
  have hset := Dispatch.setInterest_inv h.inv fd (entryOf ((s.ctx fd).events.diff m))
  obtain ⟨h1, h2, h3⟩ := Dispatch.triggerMask_inv hset h.live hm (h.schedules_of_subset hm)
  have hframe := Dispatch.triggerMask_frame
    (s.setInterest fd (entryOf ((s.ctx fd).events.diff m))) fd m
  exact ⟨h1, h2, hframe.interest, h3, hframe.others,
    fun fd' e x hx => .inl (hframe.registered fd' e x hx)⟩

theorem addEvent_eq (hev : (s.ctx fd).events.has event = false) (x : EventContext) (ok : Bool) :
    (s.addEvent fd event x ok).2 =
      if ok then
        { (s.setInterest fd (entryOf ((s.ctx fd).events.union (.ofEvent event)))).setCtx fd
            ({ s.ctx fd with events := (s.ctx fd).events.union (.ofEvent event) }.setEventContext
              event x) with
          pendingEventCount := s.pendingEventCount + 1
          log := (fd, event, .added x) :: s.log }
      else s := by
  have hne : (s.ctx fd).events.union (.ofEvent event) ≠ .NONE :=
    ne_NONE_of_has (e := event) (by simp)
  have hop : (if (s.ctx fd).events = .NONE then EpollCtlOp.ADD else .MOD) =
      requiredOp (s.interest fd) ((s.ctx fd).events.union (.ofEvent event)) := by
    rw [h.requiredOp_eq, if_neg hne]
  have hclean : (s.ctx fd).getEventContext event = .empty := by
    refine h.inv.clean fd event ?_
    rw [Dispatch.registered_eq, hev]
    rfl
  unfold Dispatch.addEvent
  dsimp only
  rw [if_neg (by simp [hev]), hop, epollCtl_required ok fun _ => hne]
  cases ok with
  | false => rfl
  | true =>
      simp only [if_true]
      rw [if_pos hclean]

end MirrorInv

/-! ## Every operation -/

/-- The two ways an operation ends: it makes no `epoll_ctl` call or the call fails, and
nothing has changed; or the call goes through and the descriptor is rewritten. -/
def Outcome (s : Dispatch) (a : SoloAct) (s' : Dispatch) : Prop :=
  ((s.ctlCall a = none ∨ a.ok = false) ∧ s' = s) ∨
  ∃ c, s.ctlCall a = some c ∧ a.ok = true ∧ Rewrites s s' c.fd c.events

namespace MirrorInv

variable {s : Dispatch} {fd : Nat} {event : Event} (h : MirrorInv s)

include h

theorem addEvent_outcome (hev : (s.ctx fd).events.has event = false) (scheduler : Nat)
    (cb : Option CbId) (current : FiberId) (ok : Bool) :
    Outcome s (.addEvent fd event scheduler cb current ok)
      (s.addEvent fd event (Dispatch.eventContext (some scheduler) cb current) ok).2 := by
  have hinv : DispatchInv
      (s.addEvent fd event (Dispatch.eventContext (some scheduler) cb current) ok).2 :=
    Dispatch.addEvent_inv h.inv _ ok
  rw [h.addEvent_eq hev] at hinv ⊢
  cases ok with
  | false => exact .inl ⟨.inr rfl, rfl⟩
  | true =>
      refine .inr ⟨s.addCall fd event, by simp [Dispatch.ctlCall, hev], rfl, ?_⟩
      simp only [if_true] at hinv ⊢
      refine ⟨hinv, h.live, rfl, ?_, ?_, ?_⟩
      · simp [Dispatch.setCtx, Dispatch.addCall]
      · intro fd' hfd
        exact Function.update_of_ne hfd _ _
      · intro fd' e x hx
        rw [registered_of_setsSlot (s := s) rfl (add_setsSlot (s.ctx fd) event _)] at hx
        split at hx
        · cases hx
          refine .inr ⟨eventContext_filled (some scheduler) cb current, ?_⟩
          cases cb <;> exact Option.some_ne_none _
        · exact .inl hx

theorem delEvent_outcome (ok : Bool) :
    Outcome s (.delEvent fd event ok) (s.delEvent fd event ok).2 := by
  have hinv : DispatchInv (s.delEvent fd event ok).2 := Dispatch.delEvent_inv h.inv ok
  unfold Dispatch.delEvent at hinv ⊢
  dsimp only at hinv ⊢
  by_cases hev : (s.ctx fd).events.has event = true
  · rw [if_pos hev, h.ctlRemove_eq (ne_NONE_of_has hev)] at hinv ⊢
    cases ok with
    | false => exact .inl ⟨.inr rfl, rfl⟩
    | true =>
        refine .inr ⟨s.removeCall fd (.ofEvent event), by simp [Dispatch.ctlCall, hev], rfl, ?_⟩
        simp only [if_true] at hinv ⊢
        refine ⟨hinv, h.live, rfl, ?_, ?_, ?_⟩
        · simp [Dispatch.setCtx, FdContext.resetEventContext, Dispatch.removeCall]
        · intro fd' hfd
          exact Function.update_of_ne hfd _ _
        · intro fd' e x hx
          rw [registered_of_setsSlot (s := s) rfl (del_setsSlot (s.ctx fd) event)] at hx
          split at hx
          · cases hx
          · exact .inl hx
  · rw [if_neg hev]
    exact .inl ⟨.inl (by simp [Dispatch.ctlCall, hev]), rfl⟩

theorem cancelEvent_outcome (ok : Bool) :
    Outcome s (.cancelEvent fd event ok) (s.cancelEvent fd event ok).2 := by
  unfold Dispatch.cancelEvent
  by_cases hev : (s.ctx fd).events.has event = true
  · rw [if_pos hev, h.ctlRemove_eq (ne_NONE_of_has hev)]
    cases ok with
    | false => exact .inl ⟨.inr rfl, rfl⟩
    | true =>
        refine .inr ⟨s.removeCall fd (.ofEvent event), by simp [Dispatch.ctlCall, hev], rfl, ?_⟩
        have hsub : (Mask.ofEvent event).subset (s.ctx fd).events = true := by
          rw [Mask.subset_iff]
          intro e he
          rw [Mask.has_ofEvent, decide_eq_true_eq] at he
          exact he ▸ hev
        have hone := h.rewrites_triggerMask hsub
        cases event <;> exact hone
  · rw [if_neg hev]
    exact .inl ⟨.inl (by simp [Dispatch.ctlCall, hev]), rfl⟩

theorem cancelAll_outcome (ok : Bool) : Outcome s (.cancelAll fd ok) (s.cancelAll fd ok).2 := by
  unfold Dispatch.cancelAll
  dsimp only
  by_cases hne : (s.ctx fd).events = .NONE
  · rw [if_pos hne]
    exact .inl ⟨.inl (by simp [Dispatch.ctlCall, hne]), rfl⟩
  · have hop : EpollCtlOp.DEL = requiredOp (s.interest fd) .NONE := by
      rw [h.requiredOp_eq, if_neg hne, if_pos rfl]
    have hentry : s.interest fd = none → Mask.NONE ≠ .NONE := by
      intro hnone
      rw [h.kernel, entryOf_eq_none] at hnone
      exact absurd hnone hne
    rw [if_neg hne, hop, epollCtl_required ok hentry]
    cases ok with
    | false => exact .inl ⟨.inr rfl, rfl⟩
    | true =>
        refine .inr ⟨⟨fd, .DEL, .NONE⟩, by simp [Dispatch.ctlCall, hne], rfl, ?_⟩
        have hself : (s.ctx fd).events.subset (s.ctx fd).events = true :=
          Mask.subset_iff.mpr fun _ he => he
        have hdiff : (s.ctx fd).events.diff (s.ctx fd).events = .NONE := by
          rw [Mask.eq_NONE_iff]
          intro e
          simp
        have hall := h.rewrites_triggerMask hself
        rw [hdiff] at hall
        simp only [if_true]
        -- the last assertion of `cancelAll` holds
        rw [if_pos (.inl hall.here)]
        exact hall

theorem dispatch_outcome {r : Report} (hr : r.bits.subset ((s.interest r.fd).getD .NONE) = true)
    (ok : Bool) : Outcome s (.dispatch r ok) (s.handleReport r ok) := by
  -- the reported bits are registered, and so is what an error adds to them
  have hsub : (Dispatch.realEvents (s.ctx r.fd) r).subset (s.ctx r.fd).events = true := by
    have hbits : r.bits.subset (s.ctx r.fd).events = true := by
      rw [h.kernel] at hr
      unfold entryOf at hr
      split at hr
      · rename_i hnone
        rw [hnone]
        exact hr
      · exact hr
    rw [Mask.subset_iff] at hbits ⊢
    intro e he
    unfold Dispatch.realEvents at he
    split at he
    · rw [Mask.has_union, Bool.or_eq_true] at he
      exact he.elim (hbits e) id
    · exact hbits e he
  unfold Dispatch.handleReport
  dsimp only
  by_cases hsel : (s.ctx r.fd).events.inter (Dispatch.realEvents (s.ctx r.fd) r) = .NONE
  · rw [if_pos hsel]
    exact .inl ⟨.inl (by simp [Dispatch.ctlCall, hsel]), rfl⟩
  · have hne : (s.ctx r.fd).events ≠ .NONE := by
      intro hnone
      exact hsel (by rw [hnone]; rfl)
    rw [if_neg hsel, h.ctlRemove_eq hne]
    cases ok with
    | false => exact .inl ⟨.inr rfl, rfl⟩
    | true =>
        exact .inr ⟨s.removeCall r.fd (Dispatch.realEvents (s.ctx r.fd) r),
          by simp [Dispatch.ctlCall, hsel], rfl, h.rewrites_triggerMask hsub⟩

theorem outcome {a : SoloAct} {s' : Dispatch} (hs : soloStep s a = some s') : Outcome s a s' := by
  unfold soloStep at hs
  rw [if_neg (by simp [h.live])] at hs
  cases a with
  | addEvent fd event scheduler cb current ok =>
      dsimp only at hs
      split at hs
      · cases hs
      · rename_i hev
        cases hs
        exact h.addEvent_outcome (by simpa using hev) scheduler cb current ok
  | delEvent fd event ok =>
      cases hs
      exact h.delEvent_outcome ok
  | cancelEvent fd event ok =>
      cases hs
      exact h.cancelEvent_outcome ok
  | cancelAll fd ok =>
      cases hs
      exact h.cancelAll_outcome ok
  | dispatch r ok =>
      dsimp only at hs
      split at hs
      · rename_i hr
        cases hs
        exact h.dispatch_outcome hr ok
      · cases hs

theorem step {a : SoloAct} {s' : Dispatch} (hs : soloStep s a = some s') : MirrorInv s' := by
  rcases h.outcome hs with ⟨-, rfl⟩ | ⟨c, -, -, hr⟩
  · exact h
  · exact hr.mirrorInv h

end MirrorInv

theorem mirror_inductive : soloSys.Inductive (fun _ _ => True) MirrorInv where
  init := by
    rintro s rfl
    refine ⟨start_inv_dispatch, rfl, ?_, ?_⟩
    · intro fd e x hx
      simp [Dispatch.registered, Dispatch.start, FdContext.slot, FdContext.new] at hx
    · intro fd
      rfl
  step := fun _ _ _ h _ hs => h.step hs

/-- In every run of one thread, with `epoll_ctl` failing wherever it likes, contexts, counter
and interest list agree between any two operations; each `epoll_ctl` call is the one the
kernel's entry requires and the only thing that changes the list; and an operation whose
call fails changes nothing. -/
theorem epoll_mirror {s : Dispatch} (h : soloSys.Reachable s) :
    EpollMirror s ∧
    (∀ a c, s.ctlCall a = some c → c.op = requiredOp (s.interest c.fd) c.events) ∧
    (∀ a s', soloStep s a = some s' →
      s'.interest = s.ctlEffect (s.ctlCall a) a.ok ∧ (a.ok = false → s' = s)) := by
  have hinv : MirrorInv s := mirror_inductive.invariant h
  refine ⟨hinv.mirror, fun a c hc => hinv.ctlCall_op hc, ?_⟩
  intro a s' hs
  rcases hinv.outcome hs with ⟨hno, rfl⟩ | ⟨c, hc, hok, hr⟩
  · refine ⟨?_, fun _ => rfl⟩
    unfold Dispatch.ctlEffect
    rcases hno with hcall | hok
    · rw [hcall]
    · rw [hok]
      split <;> rfl
  · refine ⟨?_, fun hfail => by simp [hok] at hfail⟩
    rw [hc, hr.interest, hok]
    rfl

/-- Both events of descriptor 5 are added, the second at the second attempt, and a hang-up is
reported with `EPOLLIN`. -/
def hangUpTrace : List SoloAct :=
  [.addEvent 5 .READ 0 (some 1) 7 true, .addEvent 5 .WRITE 0 none 7 false,
    .addEvent 5 .WRITE 0 none 7 true, .dispatch ⟨5, ⟨true, false⟩, true⟩ false]

theorem epoll_mirror_hangUp : ∃ s, soloSys.Reachable s ∧ s.pendingEventCount = 2 ∧
    s.interest 5 = some ⟨true, true⟩ ∧ EpollMirror s ∧
    s.ctlCall (.dispatch ⟨5, ⟨true, false⟩, true⟩ true) = some ⟨5, .DEL, .NONE⟩ := by
  have hrun : ∃ s, soloSys.Reachable s ∧ decide (s.pendingEventCount = 2 ∧
      s.interest 5 = some ⟨true, true⟩ ∧
      s.ctlCall (.dispatch ⟨5, ⟨true, false⟩, true⟩ true) = some ⟨5, .DEL, .NONE⟩) = true :=
    TSys.exists_reachable (l := hangUpTrace) rfl (by decide)
  obtain ⟨s, hs, htest⟩ := hrun
  obtain ⟨hcount, hentry, hcall⟩ := of_decide_eq_true htest
  exact ⟨s, hs, hcount, hentry, (epoll_mirror hs).1, hcall⟩

end Gxh.IOManager
