import Gxh.Hook.DoIo
import Gxh.Hook.Nonblock
import Gxh.Lib.Signed

/-!
# Socket timeouts

The hooked `setsockopt` keeps the timeout of a socket in its context, in milliseconds, where
`do_io` takes it from; `Socket::setRecvTimeout` and its three relatives go through the same
context.

* `TableChange` says what a step of the hooked calls may do to the contexts, so that
  `timeout_kept` follows a timeout through any run that does not set it again;
* `timeout_means` — the value is taken for what the plain call means by it exactly when it is a
  positive number of whole milliseconds. Zero arms a timer of no milliseconds, where the plain
  call waits for ever: no timeout is `-1` in the context. A thread without the hook leaves the
  context alone, so that `Socket` does not read back there what it has set.
-/

namespace Gxh.Hook

/-- `struct timeval`. -/
structure Timeval where
  tv_sec : Int
  tv_usec : Int
  deriving DecidableEq, Repr

/-- What `setsockopt` accepts. -/
structure Timeval.Normal (tv : Timeval) : Prop where
  sec_nonneg : 0 ≤ tv.tv_sec
  usec_nonneg : 0 ≤ tv.tv_usec
  usec_lt : tv.tv_usec < 1000000

/-- `v->tv_sec * 1000 + v->tv_usec / 1000`, as the `uint64_t` argument of `setTimeout`. -/
def Timeval.toMs (tv : Timeval) : Option Nat := do
  let ms ← signed half64 (tv.tv_sec * 1000)
  let sum ← signed half64 (ms + tv.tv_usec.tdiv 1000)
  pure (ofInt sum)

/-- `setsockopt(fd, SOL_SOCKET, type, tv)`, where `hooked` is the thread's `t_hook_enable`;
`none` on a signed overflow. What `setsockopt_f` does to the socket is not read again. -/
def setsockopt (s : HookState) (hooked : Bool) (fd : Nat) (type : TimeoutSo) (tv : Timeval) :
    Option HookState :=
  if !hooked then some s
  else
    match s.fdMgr.get fd with
    | none => some s
    | some _ =>
        match tv.toMs with
        | none => none
        | some v => some { s with fdMgr := s.fdMgr.modify fd fun c => c.setTimeout type v }

/-- Conversion of a `uint64_t` to `int64_t`. -/
def toLong (n : Nat) : Int := if n < 9223372036854775808 then n else n - 18446744073709551616

namespace Socket

/-- The `timeval` that `setSendTimeout` and `setRecvTimeout` make of milliseconds. -/
def timeval (v : Int) : Timeval := ⟨longToInt (v.tdiv 1000), longToInt (v.tmod 1000 * 1000)⟩

def setTimeout (s : HookState) (hooked : Bool) (sock : Nat) (type : TimeoutSo) (v : Int) :
    Option HookState :=
  setsockopt s hooked sock type (timeval v)

def getTimeout (s : HookState) (sock : Nat) (type : TimeoutSo) : Int :=
  match s.fdMgr.ctx sock with
  | some ctx => toLong (ctx.getTimeout type)
  | none => -1

def setSendTimeout (s : HookState) (hooked : Bool) (sock : Nat) (v : Int) : Option HookState :=
  setTimeout s hooked sock .SO_SNDTIMEO v

def setRecvTimeout (s : HookState) (hooked : Bool) (sock : Nat) (v : Int) : Option HookState :=
  setTimeout s hooked sock .SO_RCVTIMEO v

def getSendTimeout (s : HookState) (sock : Nat) : Int := getTimeout s sock .SO_SNDTIMEO

def getRecvTimeout (s : HookState) (sock : Nat) : Int := getTimeout s sock .SO_RCVTIMEO

end Socket

/-- The interval of the condition timer that a wait arms, if it arms one. -/
def Wait.interval (w : Wait) : Option Nat := if w.timeout = max64 then none else some w.timeout

/-- A wait does what the plain call does with `tv`: without limit for zero, and otherwise with a
timer of at least that duration. -/
def Timeval.MeantBy (tv : Timeval) (w : Wait) : Prop :=
  if tv.tv_sec = 0 ∧ tv.tv_usec = 0 then w.interval = none
  else ∃ ms, w.interval = some ms ∧ tv.tv_sec * 1000000 + tv.tv_usec ≤ ms * 1000

variable {s s' : HookState} {a : HookAct} {p : Nat} {type : TimeoutSo}

/-! ## The context table -/

/-- What a step may do to the context table. -/
inductive TableChange (m : FdManager) : HookAct → FdManager → Prop
  | same (a : HookAct) : TableChange m a m
  | del (a : HookAct) (fd : Nat) : TableChange m a (m.del fd)
  | create (a : HookAct) (k : Kernel) (fd : Nat) : TableChange m a (m.create k fd).1
  | userNonblock (a : HookAct) (fd : Nat) (v : Bool) :
      TableChange m a (m.modify fd fun c => { c with userNonblock := v })
  | setTimeout (fd : Nat) (type : TimeoutSo) (v : Nat) :
      TableChange m (.setTimeout fd type v) (m.modify fd fun c => c.setTimeout type v)

theorem hookStep_table (hs : hookStep s a = some s') : TableChange s.fdMgr a s'.fdMgr := by
  cases a with
  | create f =>
      simp only [hookStep] at hs
      split at hs <;> try cases hs
      split at hs <;> cases hs
      exact .create _ _ _
  | del f =>
      simp only [hookStep] at hs
      split at hs <;> try cases hs
      split at hs <;> cases hs
      exact .del _ _
  | setUserNonblock fd v =>
      simp only [hookStep] at hs
      split at hs <;> cases hs
      exact .userNonblock _ _ _
  | setTimeout fd type v =>
      simp only [hookStep] at hs
      split at hs <;> cases hs
      exact .setTimeout _ _ _
  | _ =>
      simp only [hookStep] at hs
      repeat' split at hs
      all_goals
        cases hs
        try exact .same _

/-- The context at `p` exists and has this timeout. -/
structure HasTimeout (m : FdManager) (p : Nat) (type : TimeoutSo) (v : Nat) : Prop where
  allocated : p < m.next
  value : (m.heap p).map (fun c => c.getTimeout type) = some v

theorem FdManager.modify_heap (m : FdManager) (fd : Nat) (f : FdCtx → FdCtx) (p : Nat) :
    (m.modify fd f).heap p = if m.get fd = some p then (m.heap p).map f else m.heap p := by
  unfold modify get
  cases hfd : m.datas fd with
  | none => simp
  | some q =>
      by_cases hq : p = q
      · simp [hq]
      · have hne : some q ≠ some p := fun h => hq (Option.some.inj h).symm
        simp [hq, hne]

theorem FdManager.modify_next (m : FdManager) (fd : Nat) (f : FdCtx → FdCtx) :
    (m.modify fd f).next = m.next := by
  unfold modify
  split <;> rfl

/-- An assignment that leaves the timeout of the context at `p` alone. -/
theorem HasTimeout.modify {m : FdManager} {v : Nat} (h : HasTimeout m p type v) (fd : Nat)
    {f : FdCtx → FdCtx}
    (hf : m.get fd = some p → ∀ c, (f c).getTimeout type = c.getTimeout type) :
    HasTimeout (m.modify fd f) p type v := by
  refine ⟨?_, ?_⟩
  · rw [FdManager.modify_next]
    exact h.allocated
  · rw [FdManager.modify_heap]
    split
    · rename_i hfd
      rw [Option.map_map, ← h.value]
      exact congrArg (fun g => (m.heap p).map g) (funext fun c => hf hfd c)
    · exact h.value

@[simp] theorem FdCtx.getTimeout_setTimeout (c : FdCtx) (type : TimeoutSo) (v : Nat) :
    (c.setTimeout type v).getTimeout type = v := by
  cases type <;> rfl

theorem FdCtx.getTimeout_setTimeout_of_ne (c : FdCtx) {type other : TimeoutSo}
    (h : other ≠ type) (v : Nat) : (c.setTimeout type v).getTimeout other = c.getTimeout other := by
  cases type <;> cases other
  · exact absurd rfl h
  · rfl
  · rfl
  · exact absurd rfl h

/-- The step does not set this timeout of the context at `p`. -/
def LeavesTimeout (p : Nat) (type : TimeoutSo) (s : HookState) (a : HookAct) : Prop :=
  ∀ fd v, a = .setTimeout fd type v → s.fdMgr.get fd ≠ some p

theorem TableChange.hasTimeout {m : FdManager} {v : Nat} (hc : TableChange s.fdMgr a m)
    (h : HasTimeout s.fdMgr p type v) (hleave : LeavesTimeout p type s a) :
    HasTimeout m p type v := by
  cases hc with
  | same => exact h
  | del => exact ⟨h.allocated, h.value⟩
  | create _ k fd =>
      refine ⟨Nat.lt_succ_of_lt h.allocated, ?_⟩
      have hne : p ≠ s.fdMgr.next := Nat.ne_of_lt h.allocated
      simp only [FdManager.create, Function.update_of_ne hne]
      exact h.value
  | userNonblock _ fd v =>
      refine h.modify fd fun _ c => ?_
      cases type <;> rfl
  | setTimeout fd type' v =>
      refine h.modify fd fun hfd c => ?_
      have hne : type ≠ type' := by
        rintro rfl
        exact hleave fd v rfl hfd
      exact c.getTimeout_setTimeout_of_ne hne v

/-- The calls go on from `s`. -/
def hookAfter (s : HookState) : TSys HookState HookAct where
  init t := t = s
  step := hookStep

/-- A timeout stays what it is until it is set again. -/
theorem timeout_kept {v : Nat} (h : HasTimeout s.fdMgr p type v) {t : HookState}
    (ht : (hookAfter s).Reaches (LeavesTimeout p type) t) : HasTimeout t.fdMgr p type v := by
  refine TSys.Inductive.invariant (P := fun t => HasTimeout t.fdMgr p type v) ⟨?_, ?_⟩ ht
  · rintro _ rfl
    exact h
  · intro u a u' hu hleave hstep
    exact (hookStep_table hstep).hasTimeout hu hleave

/-- The contexts of the table are well formed in every state of a run. -/
theorem fdMgr_wf (h : hookSys.Reachable s) : s.fdMgr.Wf := by
  refine TSys.Inductive.invariant (P := fun t => t.fdMgr.Wf) ⟨?_, ?_⟩ h
  · rintro _ rfl
    exact ⟨nofun, nofun, nofun⟩
  · intro u a u' hu _ hstep
    have hchange := hookStep_table hstep
    generalize u'.fdMgr = m at hchange ⊢
    cases hchange with
    | same => exact hu
    | del _ fd => exact hu.del fd
    | create _ k fd => exact hu.create k fd
    | userNonblock _ fd v => exact hu.modify fd _
    | setTimeout fd type v => exact hu.modify fd _

/-! ## The value -/

/-- The `Wait` of a call of `do_io` has the timeout of the context, in the call's direction. -/
theorem check_timeout {f : FiberId} {c : Call} {w : Wait} {v : Nat} (hpc : s.pc f = .got c p)
    (hstep : hookStep s (.check f) = some s') (hwait : s'.pc f = .attempt c w)
    (h : HasTimeout s.fdMgr p c.fn.timeoutSo v) : w.timeout = v := by
  simp only [hookStep] at hstep
  split at hstep
  · cases hstep
  · rw [hpc] at hstep
    dsimp only at hstep
    have hvalue := h.value
    cases hctx : s.fdMgr.heap p with
    | none =>
        rw [hctx] at hstep
        cases hstep
    | some ctx =>
        rw [hctx] at hstep hvalue
        dsimp only at hstep
        split at hstep
        · cases hstep
          simp [HookState.setPc] at hwait
        · split at hstep
          · cases hstep
            simp [HookState.setPc] at hwait
          · cases hstep
            simp only [HookState.setPc, Function.update_self, Pc.attempt.injEq] at hwait
            rw [← hwait.2]
            exact Option.some.inj hvalue

/-- `do_io` arms a timer if and only if the wait has an interval. -/
theorem arm_timers {f : FiberId} {c : Call} {w : Wait} (hpc : s.pc f = .again c w)
    (hstep : hookStep s (.arm f) = some s') :
    s'.timers = (w.interval.map fun _ => IoTimer.mk w.tinfo c).toList ++ s.timers := by
  simp only [hookStep] at hstep
  split at hstep
  · cases hstep
  · rw [hpc] at hstep
    dsimp only at hstep
    unfold Wait.interval
    split at hstep
    · rename_i hmax
      cases hstep
      rw [if_pos hmax]
      rfl
    · rename_i hmax
      cases hstep
      rw [if_neg hmax]
      rfl

theorem Timeval.toMs_eq {tv : Timeval} (h : tv.Normal) : tv.toMs =
    if tv.tv_sec * 1000 + tv.tv_usec / 1000 < half64 then
      some (tv.tv_sec * 1000 + tv.tv_usec / 1000).toNat else none := by
  obtain ⟨hsec, husec, hlt⟩ := h
  have hdiv : tv.tv_usec.tdiv 1000 = tv.tv_usec / 1000 := Int.tdiv_eq_ediv_of_nonneg husec
  unfold Timeval.toMs
  rw [hdiv]
  split
  · rename_i hfits
    rw [signed_of_lt (by omega) (by omega)]
    show (signed half64 _).bind _ = _
    rw [signed_of_lt (by omega) hfits]
    have hword := ofInt_of_nonneg (by omega) hfits
    show some _ = some _
    rw [Option.some.injEq]
    omega
  · rename_i hfits
    by_cases hsmall : tv.tv_sec * 1000 < half64
    · rw [signed_of_lt (by omega) hsmall]
      show (signed half64 _).bind _ = _
      rw [signed_of_le (by omega)]
      rfl
    · rw [signed_of_le (by omega)]
      rfl

/-- The milliseconds stand for what the plain call means if and only if there are some, and no
microseconds were dropped. -/
theorem Timeval.meantBy_iff {tv : Timeval} (h : tv.Normal) {v : Nat} (hv : tv.toMs = some v)
    {w : Wait} (hw : w.timeout = v) :
    tv.MeantBy w ↔ (tv.tv_sec ≠ 0 ∨ tv.tv_usec ≠ 0) ∧ tv.tv_usec % 1000 = 0 := by
  rw [Timeval.toMs_eq h] at hv
  obtain ⟨hsec, husec, hlt⟩ := h
  split at hv
  · rename_i hfits
    have hval := Option.some.inj hv
    have hmax : w.timeout ≠ max64 := by
      unfold max64 size64 half64 at *
      omega
    have hinterval : w.interval = some w.timeout := if_neg hmax
    unfold Timeval.MeantBy
    rw [hinterval]
    split
    · rename_i hzero
      refine iff_of_false nofun ?_
      rintro ⟨hnonzero | hnonzero, -⟩
      · exact hnonzero hzero.1
      · exact hnonzero hzero.2
    · rename_i hnonzero
      constructor
      · rintro ⟨ms, hms, hle⟩
        have hsame := Option.some.inj hms
        omega
      · intro hwhole
        exact ⟨_, rfl, by omega⟩
  · cases hv

/-! ## The calls -/

variable {fd : Nat} {tv : Timeval}

theorem setsockopt_eq (hget : s.fdMgr.get fd = some p) :
    setsockopt s true fd type tv = tv.toMs.map fun v =>
      { s with fdMgr := s.fdMgr.modify fd fun c => c.setTimeout type v } := by
  unfold setsockopt
  rw [Bool.not_true, if_neg Bool.false_ne_true, hget]
  cases tv.toMs with
  | none => rfl
  | some v => rfl

/-- The timeout that was set is in the context. -/
theorem setsockopt_hasTimeout (hwf : s.fdMgr.Wf) (hget : s.fdMgr.get fd = some p) {v : Nat}
    (hv : tv.toMs = some v) (hset : setsockopt s true fd type tv = some s') :
    HasTimeout s'.fdMgr p type v := by
  rw [setsockopt_eq hget, hv] at hset
  cases hset
  obtain ⟨ctx, hctx⟩ := Option.isSome_iff_exists.mp (hwf.alive fd p hget)
  refine ⟨?_, ?_⟩
  · rw [FdManager.modify_next]
    exact hwf.fresh fd p hget
  · rw [FdManager.modify_heap, if_pos hget, hctx]
    simp

/-- No other timeout changes. -/
theorem setsockopt_other (hget : s.fdMgr.get fd = some p)
    (hset : setsockopt s true fd type tv = some s') {q : Nat} {other : TimeoutSo}
    (hother : q ≠ p ∨ other ≠ type) :
    (s'.fdMgr.heap q).map (fun c => c.getTimeout other) =
      (s.fdMgr.heap q).map fun c => c.getTimeout other := by
  rw [setsockopt_eq hget] at hset
  obtain ⟨v, -, rfl⟩ := Option.map_eq_some_iff.mp hset
  rw [FdManager.modify_heap]
  split
  · rename_i hq
    have hsame : p = q := Option.some.inj (hget.symm.trans hq)
    have hne : other ≠ type := hother.resolve_left (not_not.mpr hsame.symm)
    rw [Option.map_map]
    exact congrArg (fun g => (s.fdMgr.heap q).map g)
      (funext fun c => c.getTimeout_setTimeout_of_ne hne v)
  · rfl

theorem setsockopt_isSome_iff (hget : s.fdMgr.get fd = some p) (h : tv.Normal) :
    (setsockopt s true fd type tv).isSome = true ↔
      tv.tv_sec * 1000 + tv.tv_usec / 1000 < half64 := by
  rw [setsockopt_eq hget, Timeval.toMs_eq h]
  split
  · rename_i hfits
    exact iff_of_true rfl hfits
  · rename_i hfits
    exact iff_of_false nofun hfits

/-- The `timeval` of a number of milliseconds stands for that number. -/
theorem Socket.timeval_toMs {v : Int} (hnonneg : 0 ≤ v) (hv : v / 1000 < half32) :
    (Socket.timeval v).toMs = some v.toNat := by
  have hsec : Int.tdiv v 1000 = v / 1000 := Int.tdiv_eq_ediv_of_nonneg hnonneg
  have husec : Int.tmod v 1000 = v % 1000 := Int.tmod_eq_emod_of_nonneg hnonneg
  have hint : ∀ {i : Int}, 0 ≤ i → i < half32 → longToInt i = i := by
    intro i hi hlt
    unfold half32 at hlt
    unfold longToInt ofInt
    rw [toInt_of_lt (by omega)]
    omega
  have htv : Socket.timeval v = ⟨v / 1000, v % 1000 * 1000⟩ := by
    unfold Socket.timeval
    rw [hsec, husec, hint (by omega) hv, hint (by omega) (by unfold half32; omega)]
  rw [htv, Timeval.toMs_eq ⟨by dsimp only; omega, by dsimp only; omega, by dsimp only; omega⟩]
  unfold half32 at hv
  dsimp only
  rw [if_pos (by unfold half64; omega), Option.some.injEq]
  omega

theorem Socket.getTimeout_setTimeout (hwf : s.fdMgr.Wf) (hget : s.fdMgr.get fd = some p)
    (type : TimeoutSo) {v : Int} (hnonneg : 0 ≤ v) (hv : v / 1000 < half32) :
    ∃ t, Socket.setTimeout s true fd type v = some t ∧ Socket.getTimeout t fd type = v := by
  have hms := Socket.timeval_toMs hnonneg hv
  refine ⟨{ s with fdMgr := s.fdMgr.modify fd fun c => c.setTimeout type v.toNat }, ?_, ?_⟩
  · unfold Socket.setTimeout
    rw [setsockopt_eq hget, hms]
    rfl
  · obtain ⟨ctx, hctx⟩ := Option.isSome_iff_exists.mp (hwf.alive fd p hget)
    have hold : s.fdMgr.ctx fd = some ctx := by
      unfold FdManager.ctx
      rw [hget]
      exact hctx
    have hnew : (s.fdMgr.modify fd fun c => c.setTimeout type v.toNat).ctx fd =
        some (ctx.setTimeout type v.toNat) := by
      rw [FdManager.ctx_modify hwf, if_pos rfl, hold]
      rfl
    unfold Socket.getTimeout
    dsimp only
    rw [hnew]
    dsimp only
    rw [FdCtx.getTimeout_setTimeout]
    unfold toLong
    rw [if_pos (by unfold half32 at hv; omega)]
    omega

/-- A thread without the hook leaves the timeout as it was. -/
theorem Socket.readBack_iff (hwf : s.fdMgr.Wf) (hget : s.fdMgr.get fd = some p) {hooked : Bool}
    {v : Int} (hnonneg : 0 ≤ v) (hv : v / 1000 < half32) :
    ∃ t, Socket.setTimeout s hooked fd type v = some t ∧
      (Socket.getTimeout t fd type = v ↔ hooked = true ∨ Socket.getTimeout s fd type = v) := by
  cases hooked with
  | false => exact ⟨s, rfl, (or_iff_right Bool.false_ne_true).symm⟩
  | true =>
      obtain ⟨t, hset, hback⟩ :=
        Socket.getTimeout_setTimeout hwf hget type hnonneg hv
      exact ⟨t, hset, iff_of_true hback (.inl rfl)⟩

/-- A timeout set on a hooked socket is what later calls of `do_io` in that direction take for
their wait, with the meaning it has for the plain call if and only if it is a positive number of
whole milliseconds; the sum of its milliseconds is to fit in a `long`. Nothing else is changed, and
`do_io` arms a timer if and only if the wait has an interval. `Socket` reads back what it has set if
and only if it was set on a thread with the hook, or was the timeout before. -/
theorem timeout_means (hs : hookSys.Reachable s) (hget : s.fdMgr.get fd = some p)
    (type : TimeoutSo) :
    (∀ tv : Timeval, tv.Normal →
      ((setsockopt s true fd type tv).isSome = true ↔
        tv.tv_sec * 1000 + tv.tv_usec / 1000 < half64) ∧
      ∀ s', setsockopt s true fd type tv = some s' →
        (∀ q other, q ≠ p ∨ other ≠ type → (s'.fdMgr.heap q).map (fun c => c.getTimeout other) =
          (s.fdMgr.heap q).map fun c => c.getTimeout other) ∧
        ∀ t, (hookAfter s').Reaches (LeavesTimeout p type) t → ∀ f c t' w,
          t.pc f = .got c p → c.fn.timeoutSo = type → hookStep t (.check f) = some t' →
          t'.pc f = .attempt c w →
          (tv.MeantBy w ↔ (tv.tv_sec ≠ 0 ∨ tv.tv_usec ≠ 0) ∧ tv.tv_usec % 1000 = 0)) ∧
    (∀ (hooked : Bool) (v : Int), 0 ≤ v → v / 1000 < half32 →
      ∃ t, Socket.setTimeout s hooked fd type v = some t ∧
        (Socket.getTimeout t fd type = v ↔
          hooked = true ∨ Socket.getTimeout s fd type = v)) ∧
    ∀ t f c w t', t.pc f = .again c w → hookStep t (.arm f) = some t' →
      t'.timers = (w.interval.map fun _ => IoTimer.mk w.tinfo c).toList ++ t.timers := by
  have hwf := fdMgr_wf hs
  refine ⟨fun tv hnormal => ⟨setsockopt_isSome_iff hget hnormal, ?_⟩,
    fun hooked v hnonneg hv => Socket.readBack_iff hwf hget hnonneg hv,
    fun t f c w t' hpc hstep => arm_timers hpc hstep⟩
  intro s' hset
  refine ⟨fun q other hother => setsockopt_other hget hset hother, ?_⟩
  intro t ht f c t' w hpc htype hstep hwait
  obtain ⟨v, hv, -⟩ := Option.map_eq_some_iff.mp ((setsockopt_eq hget).symm.trans hset)
  -- `check` reads the timeout that was set, as no step since has set it again
  have hkept := timeout_kept (setsockopt_hasTimeout hwf hget hv hset) ht
  rw [← htype] at hkept
  exact Timeval.meantBy_iff hnormal hv (check_timeout hpc hstep hwait hkept)

/-- Fiber 1 has made socket 5. -/
def oneSocket : HookState :=
  (hookSys.exec (fun _ _ => true) .start [.socket 1 5 true, .getCreate 1, .create 1]).get
    (by decide)

theorem oneSocket_reachable : hookSys.Reachable oneSocket :=
  TSys.exec_reaches (fun _ _ _ => trivial) (.init rfl) (Option.some_get _).symm

/-- The step sets no timeout at all. -/
def setsNone : HookAct → Bool
  | .setTimeout .. => false
  | _ => true

theorem leavesTimeout_of_setsNone {p : Nat} {type : TimeoutSo} (s : HookState) (a : HookAct)
    (h : setsNone a = true) : LeavesTimeout p type s a := by
  rintro fd v rfl
  cases h

/-- Socket 5 has a timeout of 2.5 seconds. -/
def timedSocket : HookState :=
  (setsockopt oneSocket true 5 .SO_RCVTIMEO ⟨2, 500000⟩).get (by decide)

/-- Fiber 1 reads from it. -/
def timedRead : HookState :=
  ((hookAfter timedSocket).exec (fun _ => setsNone) timedSocket
    [.enter 1 .read 5 true, .get 1]).get (by decide)

theorem timeout_means_timed_read :
    (∃ t' w, hookStep timedRead (.check 1) = some t' ∧ t'.pc 1 = .attempt ⟨.read, 5, some 5⟩ w ∧
      (Timeval.mk 2 500000).MeantBy w) ∧
    ∃ t, Socket.setTimeout oneSocket true 5 .SO_RCVTIMEO 2500 = some t ∧
      Socket.getTimeout t 5 .SO_RCVTIMEO = 2500 := by
  have hmeans := @timeout_means oneSocket 0 5 oneSocket_reachable rfl .SO_RCVTIMEO
  have hnormal : (Timeval.mk 2 500000).Normal := ⟨by decide, by decide, by decide⟩
  have hread : (hookAfter timedSocket).Reaches (LeavesTimeout 0 .SO_RCVTIMEO) timedRead :=
    TSys.exec_reaches leavesTimeout_of_setsNone (.init rfl) (Option.some_get _).symm
  obtain ⟨t, hset, hback⟩ := hmeans.2.1 true 2500 (by decide) (by decide)
  refine ⟨⟨_, ⟨2500, 0⟩, rfl, by decide, ?_⟩, t, hset, hback.mpr (.inl rfl)⟩
  exact (((hmeans.1 _ hnormal).2 timedSocket (Option.some_get _).symm).2 timedRead hread 1
    ⟨.read, 5, some 5⟩ _ ⟨2500, 0⟩ rfl rfl rfl (by decide)).mpr (by decide)

/-- On a thread without the hook the socket keeps its `-1`. -/
example : (Socket.setRecvTimeout oneSocket false 5 2500).map
    (fun t => Socket.getRecvTimeout t 5) = some (-1) := by decide

/-- Fiber 1 reads from socket 5 and finds nothing. -/
def readTrace : List HookAct :=
  [.enter 1 .read 5 true, .get 1, .check 1, .attempt 1 .EAGAIN, .arm 1]

/-- A timeout of zero makes the `read` arm a timer of no milliseconds. -/
theorem timeout_zero_expires : hookSys.Reachable oneSocket ∧ ∃ s' t w,
    setsockopt oneSocket true 5 .SO_RCVTIMEO ⟨0, 0⟩ = some s' ∧
    hookSys.exec (fun _ _ => true) s' readTrace = some t ∧
    t.pc 1 = .armed ⟨.read, 5, some 5⟩ w ∧ t.timers.length = 1 ∧
    w.interval = some 0 ∧ ¬(Timeval.mk 0 0).MeantBy w := by
  refine ⟨oneSocket_reachable, _, _, ⟨0, 0⟩, rfl, rfl, by decide, by decide, by decide, ?_⟩
  nofun

end Gxh.Hook
