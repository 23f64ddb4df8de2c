import Gxh.Lib.TSys
import Gxh.Hook.FdManager

/-!
# `O_NONBLOCK` of hooked sockets

The calls of `hook.cc` that make, close and configure sockets, over the kernel's flag and the
two flags of an `FdCtx`. Threads run with the hook enabled or not; `fcntl` and `ioctl` do not ask.

* `fcntl(F_SETFL)` records what the user wants and keeps the kernel's flag at `m_sysNonblock`;
  `ioctl(FIONBIO)` records it too, and then hands the user's value to the kernel.
* A context belongs to a number and not to a socket. `close` on a thread without the hook leaves
  it behind, and `FdMgr::get(fd, true)` gives it to the next socket of that number as it is.

`FlagsOk` says which steps do no harm: exactly those after which every socket is as it should be.
-/

namespace Gxh.Hook

namespace Kernel

/-- The description a number names. -/
def named (k : Kernel) (n : Nat) : Option Desc := (k.fds n).map k.desc

/-- `fcntl_f(F_SETFL)` and `ioctl_f(FIONBIO)` set the flag; on a closed number they fail. -/
def setFl (k : Kernel) (n : Nat) (v : Bool) : Kernel :=
  match k.fds n with
  | none => k
  | some d => { k with desc := Function.update k.desc d { k.desc d with nonblock := v } }

/-- No two numbers share a description, and no description is handed out twice. -/
structure Wf (k : Kernel) : Prop where
  fresh : ∀ n d, k.fds n = some d → d < k.next
  inj : ∀ n m d, k.fds n = some d → k.fds m = some d → n = m

variable {k : Kernel}

theorem Wf.create (h : k.Wf) (n : Nat) (d : Desc) : (k.create n d).Wf where
  fresh := by
    intro m e hm
    show e < k.next + 1
    by_cases hmn : m = n
    · subst hmn
      rw [create_fds_self] at hm
      cases hm
      exact Nat.lt_succ_self _
    · rw [create_fds_of_ne k d hmn] at hm
      exact Nat.lt_succ_of_lt (h.fresh m e hm)
  inj := by
    intro m m' e hm hm'
    by_cases hmn : m = n
    · by_cases hmn' : m' = n
      · rw [hmn, hmn']
      · rw [hmn, create_fds_self] at hm
        rw [create_fds_of_ne k d hmn'] at hm'
        cases hm
        exact absurd (h.fresh m' _ hm') (Nat.lt_irrefl _)
    · by_cases hmn' : m' = n
      · rw [hmn', create_fds_self] at hm'
        rw [create_fds_of_ne k d hmn] at hm
        cases hm'
        exact absurd (h.fresh m _ hm) (Nat.lt_irrefl _)
      · rw [create_fds_of_ne k d hmn] at hm
        rw [create_fds_of_ne k d hmn'] at hm'
        exact h.inj m m' e hm hm'

/-- Only the descriptor table decides well-formedness. -/
theorem Wf.of_fds (h : k.Wf) {k' : Kernel} (hnext : k'.next = k.next)
    (hfds : ∀ m, k'.fds m = none ∨ k'.fds m = k.fds m) : k'.Wf where
  fresh := by
    intro m e hm
    rw [hnext]
    rcases hfds m with hnone | heq
    · rw [hnone] at hm
      cases hm
    · exact h.fresh m e (heq ▸ hm)
  inj := by
    intro m m' e hm hm'
    rcases hfds m with hnone | heq
    · rw [hnone] at hm
      cases hm
    · rcases hfds m' with hnone' | heq'
      · rw [hnone'] at hm'
        cases hm'
      · exact h.inj m m' e (heq ▸ hm) (heq' ▸ hm')

theorem named_create (h : k.Wf) (n : Nat) (d : Desc) (m : Nat) :
    (k.create n d).named m = if m = n then some d else k.named m := by
  unfold named
  split
  · rename_i hm
    rw [hm, create_fds_self]
    simp [create]
  · rename_i hm
    rw [create_fds_of_ne k d hm]
    cases hfd : k.fds m with
    | none => rfl
    | some e =>
        have hne : e ≠ k.next := Nat.ne_of_lt (h.fresh m e hfd)
        simp [create, hne]

theorem named_close (k : Kernel) (n m : Nat) :
    (k.close n).named m = if m = n then none else k.named m := by
  unfold named close
  by_cases hm : m = n
  · simp [hm]
  · simp [hm]

theorem named_setFl (h : k.Wf) (n : Nat) (v : Bool) (m : Nat) :
    (k.setFl n v).named m =
      if m = n then (k.named n).map fun d => { d with nonblock := v } else k.named m := by
  unfold setFl named
  cases hn : k.fds n with
  | none =>
      dsimp only
      split
      · rename_i hm
        simp [hm, hn]
      · rfl
  | some d =>
      dsimp only
      split
      · rename_i hm
        simp [hm, hn]
      · rename_i hm
        cases hfd : k.fds m with
        | none => rfl
        | some e =>
            have hne : e ≠ d := fun he => hm (h.inj m n d (he ▸ hfd) hn)
            simp [hne]

theorem setFl_fds (k : Kernel) (n : Nat) (v : Bool) : (k.setFl n v).fds = k.fds := by
  unfold setFl
  split <;> rfl

theorem setFl_next (k : Kernel) (n : Nat) (v : Bool) : (k.setFl n v).next = k.next := by
  unfold setFl
  split <;> rfl

theorem Wf.setFl (h : k.Wf) (n : Nat) (v : Bool) : (k.setFl n v).Wf :=
  h.of_fds (setFl_next k n v) fun m => .inr (by rw [setFl_fds])

theorem Wf.close (h : k.Wf) (n : Nat) : (k.close n).Wf := h.of_fds rfl (close_fds k n)

end Kernel

/-- The context `init` makes of a socket. -/
def FdCtx.ofSocket (n : Nat) : FdCtx where
  isInit := true
  isSocket := true
  sysNonblock := true
  userNonblock := false
  isClosed := false
  fd := n
  recvTimeout := max64
  sendTimeout := max64

/-- `init` sets the flag of a socket, and touches nothing else. -/
theorem FdCtx.new_of_socket {k : Kernel} (h : k.Wf) {n : Nat} {d : Desc}
    (hn : k.named n = some d) (hd : d.isSocket = true) :
    (FdCtx.new k n).1 = .ofSocket n ∧ (FdCtx.new k n).2.Wf ∧
    ∀ m, (FdCtx.new k n).2.named m =
      if m = n then some { d with nonblock := true } else k.named m := by
  have hset := Kernel.named_setFl h n true
  unfold Kernel.named at hn
  rw [Option.map_eq_some_iff] at hn
  obtain ⟨e, hfd, rfl⟩ := hn
  have hnamed : k.named n = some (k.desc e) := by simp [Kernel.named, hfd]
  have hnew : FdCtx.new k n =
      (.ofSocket n, if (k.desc e).nonblock then k else k.setFl n true) := by
    unfold FdCtx.new FdCtx.ofSocket Kernel.setFl Kernel.setNonblock
    simp only [hfd, hd, if_true]
  rw [hnew]
  refine ⟨rfl, ?_, fun m => ?_⟩
  · split
    · exact h
    · exact h.setFl n true
  · split
    · rename_i hflag
      split
      · rename_i hm
        rw [hm, hnamed, ← hflag]
      · rfl
    · rw [hset m, hnamed]
      rfl

namespace FdManager

variable {m : FdManager}

/-- The context `get(fd)` points to. -/
def ctx (m : FdManager) (n : Nat) : Option FdCtx := (m.get n).bind m.heap

/-- Every context in the table is an object of its own. -/
structure Wf (m : FdManager) : Prop where
  fresh : ∀ n p, m.datas n = some p → p < m.next
  inj : ∀ n n' p, m.datas n = some p → m.datas n' = some p → n = n'
  alive : ∀ n p, m.datas n = some p → (m.heap p).isSome = true

theorem ctx_isSome (h : m.Wf) (n : Nat) : (m.ctx n).isSome = (m.get n).isSome := by
  unfold ctx get
  cases hp : m.datas n with
  | none => rfl
  | some p => exact h.alive n p hp

theorem ctx_del (m : FdManager) (n j : Nat) :
    (m.del n).ctx j = if j = n then none else m.ctx j := by
  unfold ctx get del
  by_cases hj : j = n
  · simp [hj]
  · simp [hj]

theorem Wf.del (h : m.Wf) (n : Nat) : (m.del n).Wf := by
  have hsub : ∀ j p, (m.del n).datas j = some p → m.datas j = some p := by
    intro j p hp
    unfold FdManager.del at hp
    by_cases hj : j = n
    · simp [hj] at hp
    · simpa [hj] using hp
  exact ⟨fun j p hp => h.fresh j p (hsub j p hp),
    fun j j' p hp hp' => h.inj j j' p (hsub j p hp) (hsub j' p hp'),
    fun j p hp => h.alive j p (hsub j p hp)⟩

theorem ctx_create (h : m.Wf) (k : Kernel) (n j : Nat) :
    (m.create k n).1.ctx j = if j = n then some (FdCtx.new k n).1 else m.ctx j := by
  unfold ctx get create
  by_cases hj : j = n
  · simp [hj]
  · cases hp : m.datas j with
    | none => simp [hj, hp]
    | some p =>
        have hne : p ≠ m.next := Nat.ne_of_lt (h.fresh j p hp)
        simp [hj, hp, hne]

theorem Wf.create (h : m.Wf) (k : Kernel) (n : Nat) : (m.create k n).1.Wf := by
  have hcases : ∀ j p, (m.create k n).1.datas j = some p →
      (j = n ∧ p = m.next) ∨ (m.datas j = some p ∧ p < m.next) := by
    intro j p hp
    unfold FdManager.create at hp
    by_cases hj : j = n
    · rw [hj] at hp
      simp only [Function.update_self, Option.some.injEq] at hp
      exact .inl ⟨hj, hp.symm⟩
    · have hp' : m.datas j = some p := by simpa [hj] using hp
      exact .inr ⟨hp', h.fresh j p hp'⟩
  refine ⟨fun j p hp => ?_, fun j j' p hp hp' => ?_, fun j p hp => ?_⟩
  · show p < m.next + 1
    rcases hcases j p hp with ⟨-, rfl⟩ | ⟨-, hlt⟩
    · exact Nat.lt_succ_self _
    · exact Nat.lt_succ_of_lt hlt
  · rcases hcases j p hp with ⟨rfl, rfl⟩ | ⟨hj, hlt⟩
    · rcases hcases j' _ hp' with ⟨rfl, -⟩ | ⟨-, hlt'⟩
      · rfl
      · exact absurd hlt' (Nat.lt_irrefl _)
    · rcases hcases j' p hp' with ⟨-, rfl⟩ | ⟨hj', -⟩
      · exact absurd hlt (Nat.lt_irrefl _)
      · exact h.inj j j' p hj hj'
  · unfold FdManager.create
    rcases hcases j p hp with ⟨-, rfl⟩ | ⟨hj, hlt⟩
    · simp
    · have hne : p ≠ m.next := Nat.ne_of_lt hlt
      simpa [hne] using h.alive j p hj

theorem ctx_modify (h : m.Wf) (n : Nat) (f : FdCtx → FdCtx) (j : Nat) :
    (m.modify n f).ctx j = if j = n then (m.ctx n).map f else m.ctx j := by
  unfold modify ctx get
  cases hn : m.datas n with
  | none =>
      dsimp only
      split
      · rename_i hj
        simp [hj, hn]
      · rfl
  | some p =>
      dsimp only
      split
      · rename_i hj
        simp [hj, hn]
      · rename_i hj
        cases hp : m.datas j with
        | none => rfl
        | some q =>
            have hne : q ≠ p := fun hq => hj (h.inj j n p (hq ▸ hp) hn)
            simp [hne]

theorem Wf.modify (h : m.Wf) (n : Nat) (f : FdCtx → FdCtx) : (m.modify n f).Wf := by
  unfold FdManager.modify
  split
  · exact h
  · rename_i p hp
    refine ⟨h.fresh, h.inj, fun j q hq => ?_⟩
    by_cases hqp : q = p
    · rw [hqp]
      simpa using h.alive n p hp
    · simpa [hqp] using h.alive j q hq

end FdManager

/-! ## The calls -/

/-- The kernel, the contexts, and what the user has last asked for each open number. -/
structure FlagState where
  kernel : Kernel
  fdMgr : FdManager
  asked : Nat → Bool

namespace FlagState

/-- The descriptors below 5 (standard streams and the IO manager's own) are open. -/
def start : FlagState where
  kernel := { fds := fun n => if n < 5 then some n else none
              desc := fun _ => ⟨false, false⟩
              next := 5 }
  fdMgr := .empty
  asked := fun _ => false

/-- The kernel returns the new socket `n`, which nobody has configured yet. -/
def newSocket (s : FlagState) (n : Nat) (nonblock : Bool) : FlagState :=
  { s with
    kernel := s.kernel.create n ⟨true, nonblock⟩
    asked := Function.update s.asked n false }

/-- `FdMgr::get(fd, true)`. -/
def getCreate (s : FlagState) (n : Nat) : FlagState :=
  if (s.fdMgr.get n).isSome then s
  else { s with
    fdMgr := (s.fdMgr.create s.kernel n).1
    kernel := (s.fdMgr.create s.kernel n).2 }

/-- `socket`, with `SOCK_NONBLOCK` in its type or not. -/
def socket (s : FlagState) (n : Nat) (hooked nonblock : Bool) : FlagState :=
  if hooked then (s.newSocket n nonblock).getCreate n else s.newSocket n nonblock

/-- `accept`: the context is made whether the hook is enabled or not. -/
def accept (s : FlagState) (n : Nat) : FlagState := (s.newSocket n false).getCreate n

/-- The user asks for a value of the flag; on a closed number the call fails. -/
def ask (s : FlagState) (n : Nat) (v : Bool) : FlagState :=
  if (s.kernel.named n).isSome then { s with asked := Function.update s.asked n v } else s

/-- `ctx->setUserNonblock(v)`. -/
def setUserNonblock (s : FlagState) (n : Nat) (v : Bool) : FlagState :=
  { s with fdMgr := s.fdMgr.modify n fun c => { c with userNonblock := v } }

def setFl (s : FlagState) (n : Nat) (v : Bool) : FlagState :=
  { s with kernel := s.kernel.setFl n v }

/-- `!ctx || ctx->isClose() || !ctx->isSocket()` is false. -/
def hookedCtx (s : FlagState) (n : Nat) : Option FdCtx :=
  (s.fdMgr.ctx n).filter fun c => !c.isClosed && c.isSocket

/-- `fcntl(fd, F_SETFL, arg)`. -/
def fcntlSetfl (s : FlagState) (n : Nat) (arg : Bool) : FlagState :=
  match s.hookedCtx n with
  | none => (s.ask n arg).setFl n arg
  | some c => ((s.ask n arg).setUserNonblock n arg).setFl n c.sysNonblock

/-- `O_NONBLOCK` in the answer of `fcntl(fd, F_GETFL)`. -/
def fcntlGetfl (s : FlagState) (n : Nat) : Option Bool :=
  (s.kernel.named n).map fun d =>
    match s.hookedCtx n with
    | none => d.nonblock
    | some c => c.userNonblock

/-- `ioctl(d, FIONBIO, &arg)`. -/
def ioctlFionbio (s : FlagState) (n : Nat) (arg : Bool) : FlagState :=
  match s.hookedCtx n with
  | none => (s.ask n arg).setFl n arg
  | some _ => ((s.ask n arg).setUserNonblock n arg).setFl n arg

/-- `close`. -/
def close (s : FlagState) (n : Nat) (hooked : Bool) : FlagState :=
  { s with
    fdMgr := if hooked && (s.fdMgr.get n).isSome then s.fdMgr.del n else s.fdMgr
    kernel := s.kernel.close n }

/-- A socket is as it should be: the kernel never blocks in a call that `do_io` may make, and
the user reads the flag as it was last set. -/
def SocketOk (s : FlagState) (n : Nat) : Prop :=
  (∀ d c, s.kernel.named n = some d → s.fdMgr.ctx n = some c → c.isSocket = true →
    c.userNonblock = false → d.nonblock = true) ∧
  s.fcntlGetfl n = some (s.asked n)

def SocketsOk (s : FlagState) : Prop :=
  ∀ n d, s.kernel.named n = some d → d.isSocket = true → s.SocketOk n

end FlagState

inductive FlagAct
  | socket (n : Nat) (hooked nonblock : Bool)
  | accept (n : Nat)
  | fcntlSetfl (n : Nat) (arg : Bool)
  | ioctlFionbio (n : Nat) (arg : Bool)
  | close (n : Nat) (hooked : Bool)
  deriving DecidableEq, Repr

/-- A new socket takes a number that is not open. -/
def flagStep (s : FlagState) : FlagAct → Option FlagState
  | .socket n hooked nonblock => when (s.kernel.named n = none) (s.socket n hooked nonblock)
  | .accept n => when (s.kernel.named n = none) (s.accept n)
  | .fcntlSetfl n arg => some (s.fcntlSetfl n arg)
  | .ioctlFionbio n arg => some (s.ioctlFionbio n arg)
  | .close n hooked => some (s.close n hooked)

def flagSys : TSys FlagState FlagAct where
  init := fun s => s = .start
  step := flagStep

/-- The steps that do no harm. A context that is still there when its number is handed out again
is one that `close` has left behind. -/
def FlagsOk (s : FlagState) : FlagAct → Prop
  | .socket n hooked nonblock =>
      match s.fdMgr.ctx n with
      | none => hooked = true ∨ nonblock = false
      | some c => c.userNonblock = false ∧ nonblock = true
  | .accept n => s.fdMgr.ctx n = none
  | .ioctlFionbio n arg => s.kernel.named n = none ∨ s.fdMgr.ctx n = none ∨ arg = true
  | .fcntlSetfl _ _ | .close _ _ => True

/-! ## What the calls do -/

/-- What there is under one number. -/
structure Slot where
  desc : Option Desc
  ctx : Option FdCtx
  asked : Bool

def FlagState.slot (s : FlagState) (n : Nat) : Slot := ⟨s.kernel.named n, s.fdMgr.ctx n, s.asked n⟩

namespace Slot

/-- Every context is one of a socket, set to non-blocking. -/
structure Sound (x : Slot) : Prop where
  ctx : ∀ c, x.ctx = some c → c.isSocket = true ∧ c.sysNonblock = true ∧ c.isClosed = false
  desc : ∀ d c, x.desc = some d → x.ctx = some c → d.isSocket = true

/-- What a socket with a context owes its user, and one without. -/
def Ok (x : Slot) : Prop :=
  ∀ d, x.desc = some d → d.isSocket = true →
    match x.ctx with
    | none => d.nonblock = x.asked
    | some c => (c.userNonblock = false → d.nonblock = true) ∧ c.userNonblock = x.asked

end Slot

/-- The invariant. -/
structure FlagInv (s : FlagState) : Prop where
  kernel : s.kernel.Wf
  fdMgr : s.fdMgr.Wf
  sound : ∀ n, (s.slot n).Sound

variable {s : FlagState}

theorem FlagInv.hookedCtx_eq (h : FlagInv s) (n : Nat) : s.hookedCtx n = s.fdMgr.ctx n := by
  unfold FlagState.hookedCtx
  cases hc : s.fdMgr.ctx n with
  | none => rfl
  | some c =>
      obtain ⟨hsock, -, hclosed⟩ := (h.sound n).ctx c hc
      simp [hsock, hclosed]

theorem FlagInv.socketsOk_iff (h : FlagInv s) : s.SocketsOk ↔ ∀ n, (s.slot n).Ok := by
  refine forall_congr' fun n => forall_congr' fun d => ?_
  show (s.kernel.named n = some d → _ → _) ↔ (s.kernel.named n = some d → _ → _)
  refine imp_congr_right fun hd => imp_congr_right fun _ => ?_
  unfold FlagState.SocketOk FlagState.fcntlGetfl
  rw [h.hookedCtx_eq, hd]
  show _ ↔ match s.fdMgr.ctx n with | none => _ | some c => _
  cases hc : s.fdMgr.ctx n with
  | none => simp [FlagState.slot]
  | some c =>
      have hsock := ((h.sound n).ctx c hc).1
      simp [hsock, FlagState.slot]

/-- A step changes the slot of its own number. -/
structure FlagEffect (s s' : FlagState) (n : Nat) (x : Slot) : Prop where
  kernel : s'.kernel.Wf
  fdMgr : s'.fdMgr.Wf
  slot : ∀ m, s'.slot m = if m = n then x else s.slot m

theorem FlagEffect.inv {s' : FlagState} {n : Nat} {x : Slot} (he : FlagEffect s s' n x)
    (h : FlagInv s)
    (hx : x.Sound) : FlagInv s' := by
  refine ⟨he.kernel, he.fdMgr, fun m => ?_⟩
  rw [he.slot]
  split
  · exact hx
  · exact h.sound m

/-- After a step all is well if and only if it is well under the step's number. -/
theorem FlagEffect.ok_iff {s' : FlagState} {n : Nat} {x : Slot} (he : FlagEffect s s' n x)
    (h : FlagInv s)
    (hx : x.Sound) (hok : s.SocketsOk) : s'.SocketsOk ↔ x.Ok := by
  rw [(he.inv h hx).socketsOk_iff]
  constructor
  · intro hall
    have := hall n
    rwa [he.slot, if_pos rfl] at this
  · intro hx m
    rw [he.slot]
    split
    · exact hx
    · exact h.socketsOk_iff.mp hok m

/-- The slot a new socket takes. -/
def Slot.fresh (x : Slot) (nonblock : Bool) : Slot := ⟨some ⟨true, nonblock⟩, x.ctx, false⟩

theorem newSocket_effect (h : FlagInv s) (n : Nat) (nonblock : Bool) :
    FlagEffect s (s.newSocket n nonblock) n ((s.slot n).fresh nonblock) where
  kernel := h.kernel.create n _
  fdMgr := h.fdMgr
  slot := by
    intro m
    unfold FlagState.slot FlagState.newSocket
    dsimp only
    rw [Kernel.named_create h.kernel]
    split
    · rename_i hm
      rw [hm, Function.update_self]
      rfl
    · rename_i hm
      rw [Function.update_of_ne hm]

theorem sound_fresh (h : FlagInv s) (n : Nat) (nonblock : Bool) :
    ((s.slot n).fresh nonblock).Sound where
  ctx := (h.sound n).ctx
  desc := by
    intro d c hd _
    cases hd
    rfl

/-- The slot with the context `get(fd, true)` finds or makes. -/
def Slot.withCtx (x : Slot) (n : Nat) : Slot :=
  match x.ctx with
  | some _ => x
  | none => ⟨x.desc.map fun d => { d with nonblock := true }, some (.ofSocket n), x.asked⟩

theorem getCreate_effect (h : FlagInv s) {n : Nat} {d : Desc} (hd : s.kernel.named n = some d)
    (hsock : d.isSocket = true) : FlagEffect s (s.getCreate n) n ((s.slot n).withCtx n) := by
  unfold FlagState.getCreate Slot.withCtx
  have hsome := FdManager.ctx_isSome h.fdMgr n
  show FlagEffect s _ n (match s.fdMgr.ctx n with | some _ => _ | none => _)
  cases hc : s.fdMgr.ctx n with
  | some c =>
      rw [hc, Option.isSome_some] at hsome
      rw [if_pos hsome.symm]
      refine ⟨h.kernel, h.fdMgr, fun m => ?_⟩
      split
      · rename_i hm
        rw [hm]
      · rfl
  | none =>
      rw [hc, Option.isSome_none] at hsome
      rw [if_neg (by rw [← hsome]; decide)]
      obtain ⟨hctx, hwf, hnamed⟩ := FdCtx.new_of_socket h.kernel hd hsock
      refine ⟨hwf, h.fdMgr.create _ n, fun m => ?_⟩
      unfold FlagState.slot
      dsimp only
      rw [FdManager.ctx_create h.fdMgr, hctx]
      show (⟨(FdCtx.new s.kernel n).2.named m, _, _⟩ : Slot) = _
      rw [hnamed]
      split
      · rename_i hm
        rw [hm, hd]
        rfl
      · rfl

theorem close_effect (h : FlagInv s) (n : Nat) (hooked : Bool) :
    FlagEffect s (s.close n hooked) n
      ⟨none, if hooked then none else (s.slot n).ctx, (s.slot n).asked⟩ where
  kernel := h.kernel.close n
  fdMgr := by
    unfold FlagState.close
    dsimp only
    split
    · exact h.fdMgr.del n
    · exact h.fdMgr
  slot := by
    intro m
    have hctx : (s.close n hooked).fdMgr.ctx m =
        if m = n then (if hooked then none else s.fdMgr.ctx n) else s.fdMgr.ctx m := by
      have hsome := FdManager.ctx_isSome h.fdMgr n
      unfold FlagState.close
      dsimp only
      cases hooked with
      | false =>
          show s.fdMgr.ctx m = _
          split
          · rename_i hm
            rw [hm]
            rfl
          · rfl
      | true =>
          cases hget : (s.fdMgr.get n).isSome with
          | true => exact FdManager.ctx_del s.fdMgr n m
          | false =>
              rw [hget, Option.isSome_eq_false_iff, Option.isNone_iff_eq_none] at hsome
              show s.fdMgr.ctx m = _
              split
              · rename_i hm
                rw [hm, hsome]
                rfl
              · rfl
    unfold FlagState.slot
    rw [hctx]
    show (⟨(s.kernel.close n).named m, _, _⟩ : Slot) = _
    rw [Kernel.named_close]
    split
    · rename_i hm
      rw [hm]
      rfl
    · rfl

/-- The slot after the user has set the flag: the kernel gets `sys`, a context the user's
value. -/
def Slot.set (x : Slot) (arg sys : Bool) : Slot where
  desc := x.desc.map fun d => { d with nonblock := sys }
  ctx := x.ctx.map fun c => { c with userNonblock := arg }
  asked := if x.desc.isSome then arg else x.asked

theorem sound_set {x : Slot} (h : x.Sound) (arg sys : Bool) : (x.set arg sys).Sound where
  ctx := by
    intro c hc
    obtain ⟨c', hc', rfl⟩ := Option.map_eq_some_iff.mp hc
    exact h.ctx c' hc'
  desc := by
    intro d c hd hc
    obtain ⟨d', hd', rfl⟩ := Option.map_eq_some_iff.mp hd
    obtain ⟨c', hc', -⟩ := Option.map_eq_some_iff.mp hc
    exact h.desc d' c' hd' hc'

/-- Without a context there is nothing to record. -/
theorem set_effect (h : FlagInv s) (n : Nat) (arg sys : Bool) :
    FlagEffect s (((s.ask n arg).setUserNonblock n arg).setFl n sys) n
      ((s.slot n).set arg sys) where
  kernel := by
    unfold FlagState.setFl FlagState.setUserNonblock FlagState.ask
    dsimp only
    split
    · exact h.kernel.setFl n sys
    · exact h.kernel.setFl n sys
  fdMgr := by
    unfold FlagState.setFl FlagState.setUserNonblock FlagState.ask
    dsimp only
    split
    · exact h.fdMgr.modify n _
    · exact h.fdMgr.modify n _
  slot := by
    intro m
    have hfds : (s.ask n arg).kernel = s.kernel ∧ (s.ask n arg).fdMgr = s.fdMgr := by
      unfold FlagState.ask
      split <;> exact ⟨rfl, rfl⟩
    have hasked : (s.ask n arg).asked m =
        if m = n then (if (s.kernel.named n).isSome then arg else s.asked n) else s.asked m := by
      unfold FlagState.ask
      split
      · by_cases hm : m = n
        · simp [hm]
        · simp [hm]
      · split
        · rename_i hm
          rw [hm]
        · rfl
    show (⟨((s.ask n arg).kernel.setFl n sys).named m,
      ((s.ask n arg).fdMgr.modify n _).ctx m, (s.ask n arg).asked m⟩ : Slot) = _
    rw [hfds.1, hfds.2, Kernel.named_setFl h.kernel, FdManager.ctx_modify h.fdMgr, hasked]
    split
    · rfl
    · rfl

theorem setUserNonblock_of_none (h : FlagInv s) {n : Nat} (hc : s.fdMgr.ctx n = none)
    (arg v : Bool) :
    (s.ask n arg).setUserNonblock n v = s.ask n arg := by
  have hget : s.fdMgr.datas n = none := by
    have hsome := FdManager.ctx_isSome h.fdMgr n
    rw [hc, Option.isSome_none] at hsome
    simpa [FdManager.get] using hsome.symm
  have hfd : (s.ask n arg).fdMgr = s.fdMgr := by
    unfold FlagState.ask
    split <;> rfl
  unfold FlagState.setUserNonblock FdManager.modify
  rw [hfd, hget]
  exact hfd ▸ rfl

/-- `F_SETFL`: the kernel gets the user's value only where there is no context. -/
theorem fcntlSetfl_effect (h : FlagInv s) (n : Nat) (arg : Bool) :
    FlagEffect s (s.fcntlSetfl n arg) n
      ((s.slot n).set arg (if (s.slot n).ctx.isSome then true else arg)) := by
  unfold FlagState.fcntlSetfl
  rw [h.hookedCtx_eq]
  show FlagEffect s _ n ((s.slot n).set arg (if (s.fdMgr.ctx n).isSome then true else arg))
  cases hc : s.fdMgr.ctx n with
  | none =>
      have he := set_effect h n arg arg
      rw [setUserNonblock_of_none h hc] at he
      exact he
  | some c =>
      have hsys := ((h.sound n).ctx c hc).2.1
      dsimp only
      rw [hsys]
      exact set_effect h n arg true

/-- `FIONBIO`: the kernel gets the user's value in any case. -/
theorem ioctlFionbio_effect (h : FlagInv s) (n : Nat) (arg : Bool) :
    FlagEffect s (s.ioctlFionbio n arg) n ((s.slot n).set arg arg) := by
  unfold FlagState.ioctlFionbio
  rw [h.hookedCtx_eq]
  cases hc : s.fdMgr.ctx n with
  | none =>
      have he := set_effect h n arg arg
      rw [setUserNonblock_of_none h hc] at he
      exact he
  | some c => exact set_effect h n arg arg

/-- Two changes under the same number. -/
theorem FlagEffect.trans {s' s'' : FlagState} {n : Nat} {x y : Slot} (h : FlagEffect s s' n x)
    (h' : FlagEffect s' s'' n y) : FlagEffect s s'' n y := by
  refine ⟨h'.kernel, h'.fdMgr, fun m => ?_⟩
  rw [h'.slot]
  split
  · rfl
  · rename_i hm
    rw [h.slot, if_neg hm]

/-- The socket with its context. -/
theorem newSocket_getCreate_effect (h : FlagInv s) (n : Nat) (nonblock : Bool) :
    FlagEffect s ((s.newSocket n nonblock).getCreate n) n
      (((s.slot n).fresh nonblock).withCtx n) := by
  have he := newSocket_effect h n nonblock
  have hinv := he.inv h (sound_fresh h n nonblock)
  have hslot : (s.newSocket n nonblock).slot n = (s.slot n).fresh nonblock := by
    rw [he.slot, if_pos rfl]
  have hnamed : (s.newSocket n nonblock).kernel.named n = some ⟨true, nonblock⟩ :=
    congrArg Slot.desc hslot
  have he' := getCreate_effect hinv hnamed rfl
  rw [hslot] at he'
  exact he.trans he'

/-! ## All calls -/

theorem sound_withCtx {x : Slot} (h : x.Sound) (n : Nat)
    (hd : ∀ d, x.desc = some d → d.isSocket = true) :
    (x.withCtx n).Sound := by
  unfold Slot.withCtx
  split
  · exact h
  · refine ⟨fun c hc => ?_, fun d c hd' _ => ?_⟩
    · cases hc
      exact ⟨rfl, rfl, rfl⟩
    · obtain ⟨d'', hd'', rfl⟩ := Option.map_eq_some_iff.mp hd'
      exact hd d'' hd''

/-- A new socket with a context is well if the context is new, or an old one that happens to
fit. -/
theorem ok_fresh_withCtx (x : Slot) (n : Nat) (nonblock : Bool) :
    ((x.fresh nonblock).withCtx n).Ok ↔
      ∀ c, x.ctx = some c → c.userNonblock = false ∧ nonblock = true := by
  obtain ⟨desc, ctx, asked⟩ := x
  cases ctx with
  | none => simp [Slot.Ok, Slot.withCtx, Slot.fresh, FdCtx.ofSocket]
  | some c =>
      simp only [Slot.Ok, Slot.withCtx, Slot.fresh, Option.some.injEq, forall_eq', true_imp_iff]
      exact ⟨fun h => ⟨h.2, h.1 h.2⟩, fun h => ⟨fun _ => h.2, h.1⟩⟩

/-- Under its own number a step leaves things well exactly when it is one of `FlagsOk`. -/
theorem flagStep_effect (h : FlagInv s) (hok : s.SocketsOk) {a : FlagAct} {s' : FlagState}
    (hstep : flagStep s a = some s') :
    ∃ n x, FlagEffect s s' n x ∧ x.Sound ∧ (x.Ok ↔ FlagsOk s a) := by
  have hpoint := h.socketsOk_iff.mp hok
  cases a with
  | socket n hooked nonblock =>
      rw [flagStep, when_eq_some] at hstep
      obtain ⟨-, rfl⟩ := hstep
      unfold FlagState.socket
      cases hooked with
      | true =>
          refine ⟨n, _, newSocket_getCreate_effect h n nonblock,
            sound_withCtx (sound_fresh h n nonblock) n (fun d hd => by cases hd; rfl), ?_⟩
          rw [ok_fresh_withCtx]
          show (∀ c, s.fdMgr.ctx n = some c → _) ↔
            match s.fdMgr.ctx n with | none => _ | some c => _
          cases s.fdMgr.ctx n with
          | none => simp
          | some c => simp
      | false =>
          -- without the hook nobody makes the context, and one that is left may lie
          refine ⟨n, _, newSocket_effect h n nonblock, sound_fresh h n nonblock, ?_⟩
          unfold Slot.Ok Slot.fresh FlagsOk
          show (∀ d, _ → _ → match s.fdMgr.ctx n with | none => _ | some c => _) ↔
            match s.fdMgr.ctx n with | none => _ | some c => _
          cases s.fdMgr.ctx n with
          | none => simp
          | some c =>
              simp only [Option.some.injEq, forall_eq', true_imp_iff]
              exact ⟨fun h => ⟨h.2, h.1 h.2⟩, fun h => ⟨fun _ => h.2, h.1⟩⟩
  | accept n =>
      rw [flagStep, when_eq_some] at hstep
      obtain ⟨-, rfl⟩ := hstep
      refine ⟨n, _, newSocket_getCreate_effect h n false,
        sound_withCtx (sound_fresh h n false) n (fun d hd => by cases hd; rfl), ?_⟩
      rw [ok_fresh_withCtx]
      show (∀ c, s.fdMgr.ctx n = some c → _) ↔ s.fdMgr.ctx n = none
      cases s.fdMgr.ctx n with
      | none => simp
      | some c => simp
  | fcntlSetfl n arg =>
      cases hstep
      refine ⟨n, _, fcntlSetfl_effect h n arg, sound_set (h.sound n) _ _, ?_⟩
      refine ⟨fun _ => trivial, fun _ d hd _ => ?_⟩
      obtain ⟨d', hd', rfl⟩ := Option.map_eq_some_iff.mp hd
      have hopen : (s.slot n).desc.isSome = true := by rw [hd']; rfl
      simp only [Slot.set, hopen, if_true]
      cases (s.slot n).ctx with
      | none => simp
      | some c => simp
  | ioctlFionbio n arg =>
      cases hstep
      refine ⟨n, _, ioctlFionbio_effect h n arg, sound_set (h.sound n) _ _, ?_⟩
      -- `ioctl` hands the argument on to the kernel, so only a true one is harmless
      show _ ↔ (s.slot n).desc = none ∨ (s.slot n).ctx = none ∨ arg = true
      have hsound := h.sound n
      unfold Slot.Ok Slot.set
      cases hdesc : (s.slot n).desc with
      | none => simp
      | some d =>
          cases hctx : (s.slot n).ctx with
          | none => simp
          | some c =>
              have hsock := hsound.desc d c hdesc hctx
              cases arg <;> simp [hsock]
  | close n hooked =>
      cases hstep
      refine ⟨n, _, close_effect h n hooked, ⟨fun c hc => ?_, fun d c hd => ?_⟩, ?_⟩
      · dsimp only at hc
        split at hc
        · cases hc
        · exact (h.sound n).ctx c hc
      · cases hd
      · exact ⟨fun _ => trivial, fun _ d hd => by cases hd⟩

theorem flagInv_start : FlagInv .start where
  kernel := by
    refine ⟨fun n d hd => ?_, fun n m d hn hm => ?_⟩
    · simp only [FlagState.start] at hd ⊢
      split at hd
      · cases hd
        assumption
      · cases hd
    · simp only [FlagState.start] at hn hm
      split at hn
      · split at hm
        · cases hn
          cases hm
          rfl
        · cases hm
      · cases hn
  fdMgr := ⟨fun _ _ h => (by cases h), fun _ _ _ h => (by cases h), fun _ _ h => (by cases h)⟩
  sound := fun n => ⟨fun c hc => (by cases hc), fun d c _ hc => (by cases hc)⟩

theorem socketsOk_start : FlagState.start.SocketsOk := by
  intro n d hd hsock
  obtain ⟨e, -, rfl⟩ := Option.map_eq_some_iff.mp hd
  cases hsock

theorem flagInv_inductive : flagSys.Inductive FlagsOk fun s => FlagInv s ∧ s.SocketsOk where
  init := by
    rintro s rfl
    exact ⟨flagInv_start, socketsOk_start⟩
  step := by
    rintro s a s' ⟨h, hok⟩ hg hstep
    obtain ⟨n, x, he, hx, hiff⟩ := flagStep_effect h hok hstep
    exact ⟨he.inv h hx, (he.ok_iff h hx hok).mpr (hiff.mpr hg)⟩

/-- As long as every call is one of `FlagsOk`, every socket is as it should be, and the first call
that is not leaves one that is not. -/
theorem sockets_nonblocking {s : FlagState} (h : flagSys.Reaches FlagsOk s) :
    s.SocketsOk ∧ ∀ a s', flagSys.step s a = some s' → (s'.SocketsOk ↔ FlagsOk s a) := by
  obtain ⟨hinv, hok⟩ := flagInv_inductive.invariant h
  refine ⟨hok, fun a s' hstep => ?_⟩
  obtain ⟨n, x, he, hx, hiff⟩ := flagStep_effect hinv hok hstep
  exact (he.ok_iff hinv hx hok).trans hiff

/-- A socket, set to non-blocking and closed with the hook enabled, and the next one of its
number. -/
def reusedSocket : FlagState :=
  (((FlagState.start.socket 7 true false).fcntlSetfl 7 true).close 7 true).accept 7

theorem sockets_nonblocking_reused : reusedSocket.SocketsOk ∧
    ¬ (reusedSocket.ioctlFionbio 7 false).SocketsOk := by
  have h1 : flagSys.Reaches FlagsOk (FlagState.start.socket 7 true false) :=
    .step (a := .socket 7 true false) (.init rfl) (.inl rfl) rfl
  have h2 : flagSys.Reaches FlagsOk ((FlagState.start.socket 7 true false).fcntlSetfl 7 true) :=
    .step (a := .fcntlSetfl 7 true) h1 trivial rfl
  have h3 : flagSys.Reaches FlagsOk
      (((FlagState.start.socket 7 true false).fcntlSetfl 7 true).close 7 true) :=
    .step (a := .close 7 true) h2 trivial rfl
  have h4 : flagSys.Reaches FlagsOk reusedSocket := .step (a := .accept 7) h3 rfl rfl
  obtain ⟨hok, hexact⟩ := sockets_nonblocking h4
  refine ⟨hok, fun hbad => ?_⟩
  rcases (hexact (.ioctlFionbio 7 false) _ rfl).mp hbad with hnone | hnone | harg
  · cases hnone
  · cases hnone
  · cases harg

/-- `FIONBIO` with 0 on a new socket: its context still sends it through `do_io`, where the kernel
now blocks. -/
theorem sockets_blocking :
    (∃ s, flagSys.Reachable s ∧ s.kernel.named 7 = some ⟨true, false⟩ ∧
      s.fdMgr.ctx 7 = some (.ofSocket 7)) ∧
    ¬ ∀ s, flagSys.Reachable s → s.SocketsOk := by
  have hbad : ∃ s, flagSys.Reachable s ∧ s.kernel.named 7 = some ⟨true, false⟩ ∧
      s.fdMgr.ctx 7 = some (.ofSocket 7) := by
    refine ⟨(FlagState.start.socket 7 true false).ioctlFionbio 7 false, ?_, rfl, rfl⟩
    exact .step (a := .ioctlFionbio 7 false)
      (.step (a := .socket 7 true false) (.init rfl) trivial rfl) trivial rfl
  refine ⟨hbad, fun hall => ?_⟩
  obtain ⟨s, hs, hnamed, hctx⟩ := hbad
  have := (hall s hs 7 _ hnamed rfl).1 _ _ hnamed hctx rfl rfl
  cases this

end Gxh.Hook
