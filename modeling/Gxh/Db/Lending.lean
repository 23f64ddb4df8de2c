import Gxh.Db.MysqlPool

/-!
# Lending connections while the pool is reconfigured

`GetConnection`, `ReleaseConnection` and `init` of any number of threads. `GetConnection` looks at
the list without the lock, takes a token from the semaphore and then a connection under the lock;
`ReleaseConnection` does the last two in the other order; and `init` closes the free connections
under the lock and then fills the list, sets the semaphore and `m_MaxConn` without it.

`init` knows nothing of the connections that are lent. `InitOk` is the condition on the steps:
`init` begins when everything is back, and no token is taken while it runs.
-/

namespace Gxh.Db

/-- Where a call of `init` stands, after `DestroyPool`. -/
inductive InitPhase
  /-- this many connections are still to be made -/
  | filling (d : MysqlDefine) (left : Nat)
  /-- the semaphore is set and `m_MaxConn` is not -/
  | storing
  deriving DecidableEq, Repr

/-- The pool, how many calls are between which steps, and the connections handed out. -/
structure Lending where
  pool : MysqlPool
  /-- calls of `GetConnection` that have found a connection in the list -/
  checked : Nat
  /-- calls of `GetConnection` that have a token -/
  granted : Nat
  /-- calls of `ReleaseConnection` that have not given the token back -/
  posting : Nat
  lent : List Conn
  inits : List InitPhase

inductive LendAct
  | check
  | wait
  | pop
  | push (c : Conn)
  | post
  | initBegin (d : MysqlDefine)
  | initStep (i : Nat)
  deriving DecidableEq, Repr

/-- One step of one call. `GetConnection` returns `NULL` where `check` changes nothing; `pop` of
an empty list and a connection the server refuses end the run. -/
def lendStep (s : Lending) : LendAct → Option Lending
  | .check => some (if s.pool.connList.length = 0 then s else { s with checked := s.checked + 1 })
  | .wait =>
      if s.checked = 0 then none
      else s.pool.semWait.map fun pool =>
        { s with pool, checked := s.checked - 1, granted := s.granted + 1 }
  | .pop =>
      if s.granted = 0 then none
      else s.pool.popConn.map fun (c, pool) =>
        { s with pool, granted := s.granted - 1, lent := c :: s.lent }
  | .push c => when (c ∈ s.lent)
      { s with pool := s.pool.pushConn c, lent := s.lent.erase c, posting := s.posting + 1 }
  | .post => when (0 < s.posting)
      { s with pool := s.pool.semPost, posting := s.posting - 1 }
  | .initBegin d => some { s with
      pool := { s.pool.destroyPool with inited := d }
      inits := s.inits ++ [.filling d d.maxconn.toNat] }
  | .initStep i =>
      match s.inits[i]? with
      | none => none
      | some (.filling d (n + 1)) => some { s with
          pool := s.pool.connect d
          inits := s.inits.set i (.filling d n) }
      | some (.filling _ 0) => some { s with
          pool := s.pool.semInit
          inits := s.inits.set i .storing }
      | some .storing => some { s with
          pool := s.pool.setMax
          inits := s.inits.eraseIdx i }

/-- Nobody has called anything yet. -/
def Lending.start (p : MysqlPool) : Lending := ⟨p, 0, 0, 0, [], []⟩

/-- The pool of any configuration, made by its constructor. -/
def lendSys : TSys Lending LendAct where
  init := fun s => ∃ server d p, MysqlPool.construct server d = some p ∧ s = .start p
  step := lendStep

/-- `init` begins when no other one runs (two would write the list at once, without the lock), no
connection is lent, and no call is between `sem_wait` and the lock section or between the lock
section and `sem_post`; and no `sem_wait` goes through while it runs. -/
def InitOk (s : Lending) : LendAct → Prop
  | .initBegin _ => s.inits = [] ∧ s.lent = [] ∧ s.granted = 0 ∧ s.posting = 0
  | .wait => s.inits = []
  | _ => True

instance (s : Lending) (a : LendAct) : Decidable (InitOk s a) := by
  cases a <;> unfold InitOk <;> infer_instance

/-- No call is between its steps. -/
def Lending.Quiet (s : Lending) : Prop :=
  s.checked = 0 ∧ s.granted = 0 ∧ s.posting = 0 ∧ s.inits = []

/-- What the counters say; the last counter is only set when `init` ends. -/
structure Truthful (s : Lending) : Prop where
  freeConn : s.pool.freeConn = s.pool.connList.length
  curConn : s.pool.curConn = s.lent.length
  maxConn : s.inits = [] → s.pool.freeConn + s.pool.curConn = s.pool.maxConn
  reserve : s.Quiet → (s.pool.reserve : Int) = s.pool.freeConn
  bound : s.inits = [] → (s.pool.connList.length : Int) ≤ s.pool.maxConn

/-- The invariant: the tokens, in the semaphore or with a call, are as many as the connections
in the list; and while `init` runs there is nothing else to count. -/
structure LendInv (s : Lending) : Prop where
  freeConn : s.pool.freeConn = s.pool.connList.length
  curConn : s.pool.curConn = s.lent.length
  maxConn : s.inits = [] → s.pool.freeConn + s.pool.curConn = s.pool.maxConn
  tokens : s.inits = [] → s.pool.reserve + s.granted + s.posting = s.pool.connList.length
  alone : s.inits = [] ∨ ∃ phase, s.inits = [phase] ∧ s.lent = [] ∧ s.granted = 0 ∧
    s.posting = 0 ∧ (phase = .storing → s.pool.reserve = s.pool.connList.length)

namespace LendInv

variable {s : Lending}

theorem truthful (h : LendInv s) : Truthful s := by
  refine ⟨h.freeConn, h.curConn, h.maxConn, fun hquiet => ?_, fun hinits => ?_⟩
  · obtain ⟨-, hgranted, hposting, hinits⟩ := hquiet
    have htokens := h.tokens hinits
    rw [hgranted, hposting] at htokens
    rw [h.freeConn]
    exact congrArg Nat.cast htokens
  · have hmax := h.maxConn hinits
    have hfree := h.freeConn
    have hcur := h.curConn
    omega

/-- A call that has a token, or a connection, is in a pool that is not being initialised. -/
theorem settled (h : LendInv s) (hbusy : s.lent ≠ [] ∨ s.granted ≠ 0 ∨ s.posting ≠ 0) :
    s.inits = [] := by
  rcases h.alone with hnone | ⟨phase, -, hlent, hgranted, hposting, -⟩
  · exact hnone
  · rcases hbusy with hne | hne | hne
    · exact absurd hlent hne
    · exact absurd hgranted hne
    · exact absurd hposting hne

theorem start {server : Server} {d : MysqlDefine} {p : MysqlPool}
    (hp : MysqlPool.construct server d = some p) : LendInv (.start p) := by
  obtain ⟨hidle, -, hcur, hmax⟩ := MysqlPool.init_idle hp
  refine ⟨hidle.freeConn, hcur, fun _ => ?_, fun _ => hidle.reserve, .inl rfl⟩
  show p.freeConn + p.curConn = p.maxConn
  rw [hcur, hmax, Int.add_zero]

theorem check (h : LendInv s) : LendInv { s with checked := s.checked + 1 } :=
  ⟨h.freeConn, h.curConn, h.maxConn, h.tokens, h.alone⟩

theorem wait (h : LendInv s) (hinits : s.inits = []) {pool : MysqlPool}
    (hp : s.pool.semWait = some pool) :
    LendInv { s with pool, checked := s.checked - 1, granted := s.granted + 1 } := by
  obtain ⟨hpos, rfl⟩ := when_eq_some.mp hp
  refine ⟨h.freeConn, h.curConn, h.maxConn, fun _ => ?_, .inl hinits⟩
  show s.pool.reserve - 1 + (s.granted + 1) + s.posting = s.pool.connList.length
  have htokens := h.tokens hinits
  omega

theorem pop (h : LendInv s) (hgranted : s.granted ≠ 0) {c : Conn} {pool : MysqlPool}
    (hp : s.pool.popConn = some (c, pool)) :
    LendInv { s with pool, granted := s.granted - 1, lent := c :: s.lent } := by
  have hinits := h.settled (.inr (.inl hgranted))
  unfold MysqlPool.popConn at hp
  split at hp
  · cases hp
  · rename_i c' rest hlist
    cases hp
    have hfree := h.freeConn
    have hmax := h.maxConn hinits
    have htokens := h.tokens hinits
    rw [hlist, List.length_cons] at hfree htokens
    refine ⟨?_, ?_, fun _ => ?_, fun _ => ?_, .inl hinits⟩
    · show s.pool.freeConn - 1 = (rest.length : Int)
      omega
    · show s.pool.curConn + 1 = ((c :: s.lent).length : Int)
      rw [h.curConn]
      rfl
    · show s.pool.freeConn - 1 + (s.pool.curConn + 1) = s.pool.maxConn
      omega
    · show s.pool.reserve + (s.granted - 1) + s.posting = rest.length
      omega

theorem push (h : LendInv s) {c : Conn} (hc : c ∈ s.lent) :
    LendInv { s with
      pool := s.pool.pushConn c, lent := s.lent.erase c, posting := s.posting + 1 } := by
  have hinits := h.settled (.inl (List.ne_nil_of_mem hc))
  have hlen := List.length_erase_of_mem hc
  have hpos := List.length_pos_of_mem hc
  have hfree := h.freeConn
  have hcur := h.curConn
  have hmax := h.maxConn hinits
  have htokens := h.tokens hinits
  refine ⟨?_, ?_, fun _ => ?_, fun _ => ?_, .inl hinits⟩
  · show s.pool.freeConn + 1 = ((s.pool.connList ++ [c]).length : Int)
    rw [List.length_append, List.length_singleton]
    omega
  · show s.pool.curConn - 1 = ((s.lent.erase c).length : Int)
    omega
  · show s.pool.freeConn + 1 + (s.pool.curConn - 1) = s.pool.maxConn
    omega
  · show s.pool.reserve + s.granted + (s.posting + 1) = (s.pool.connList ++ [c]).length
    rw [List.length_append, List.length_singleton]
    omega

theorem post (h : LendInv s) (hposting : 0 < s.posting) :
    LendInv { s with pool := s.pool.semPost, posting := s.posting - 1 } := by
  have hinits := h.settled (.inr (.inr (Nat.ne_of_gt hposting)))
  refine ⟨h.freeConn, h.curConn, h.maxConn, fun _ => ?_, .inl hinits⟩
  show s.pool.reserve + 1 + s.granted + (s.posting - 1) = s.pool.connList.length
  have htokens := h.tokens hinits
  omega

theorem initBegin {d : MysqlDefine} (hok : InitOk s (.initBegin d)) :
    LendInv { s with
      pool := { s.pool.destroyPool with inited := d }
      inits := s.inits ++ [.filling d d.maxconn.toNat] } := by
  obtain ⟨hinits, hlent, hgranted, hposting⟩ := hok
  refine ⟨rfl, ?_, fun hnil => ?_, fun hnil => ?_,
    .inr ⟨.filling d d.maxconn.toNat, ?_, hlent, hgranted,
    hposting, ?_⟩⟩
  · show (0 : Int) = s.lent.length
    rw [hlent]
    rfl
  · simp at hnil
  · simp at hnil
  · show s.inits ++ _ = _
    rw [hinits]
    rfl
  · simp

theorem initStep (h : LendInv s) {i : Nat} {s' : Lending}
    (hs : lendStep s (.initStep i) = some s') : LendInv s' := by
  unfold lendStep at hs
  dsimp only at hs
  -- `init` runs alone: no connection is lent and no call holds a token
  rcases h.alone with hnone | ⟨phase, hphase, hlent, hgranted, hposting, hstoring⟩
  · rw [hnone] at hs
    cases hs
  · cases i with
    | succ i =>
        rw [hphase] at hs
        cases hs
    | zero =>
        have hfree := h.freeConn
        have hcur := h.curConn
        rw [hphase] at hs
        cases phase with
        | storing =>
            cases hs
            refine ⟨hfree, hcur, fun _ => ?_, fun _ => ?_, .inl rfl⟩
            · show s.pool.freeConn + s.pool.curConn = s.pool.freeConn
              rw [hcur, hlent]
              simp
            -- the semaphore gets as many tokens as there are connections
            · show s.pool.reserve + s.granted + s.posting = s.pool.connList.length
              rw [hgranted, hposting]
              exact hstoring rfl
        | filling d left =>
            cases left with
            | zero =>
                cases hs
                refine ⟨hfree, hcur, fun hnil => ?_, fun hnil => ?_,
                  .inr ⟨.storing, rfl, hlent, hgranted, hposting, fun _ => ?_⟩⟩
                · cases hnil
                · cases hnil
                · show s.pool.freeConn.toNat = s.pool.connList.length
                  rw [hfree]
                  rfl
            | succ n =>
                cases hs
                refine ⟨?_, hcur, fun hnil => ?_, fun hnil => ?_,
                  .inr ⟨.filling d n, rfl, hlent, hgranted, hposting, fun hst => ?_⟩⟩
                · show s.pool.freeConn + 1 = ((s.pool.connList ++ [_]).length : Int)
                  rw [List.length_append, List.length_singleton, hfree]
                  rfl
                · cases hnil
                · cases hnil
                · cases hst

end LendInv

theorem lend_inductive : lendSys.Inductive InitOk LendInv where
  init := by
    rintro s ⟨server, d, p, hp, rfl⟩
    exact .start hp
  step := by
    intro s a s' h hok hs
    cases a with
    | check =>
        simp only [lendSys, lendStep, Option.some.injEq] at hs
        split at hs
        · exact hs ▸ h
        · exact hs ▸ h.check
    | wait =>
        simp only [lendSys, lendStep] at hs
        split at hs
        · cases hs
        · rw [Option.map_eq_some_iff] at hs
          obtain ⟨pool, hp, rfl⟩ := hs
          exact h.wait hok hp
    | pop =>
        simp only [lendSys, lendStep] at hs
        split at hs
        · cases hs
        · rename_i hgranted
          rw [Option.map_eq_some_iff] at hs
          obtain ⟨⟨c, pool⟩, hp, rfl⟩ := hs
          exact h.pop hgranted hp
    | push c =>
        obtain ⟨hc, rfl⟩ := when_eq_some.mp hs
        exact h.push hc
    | post =>
        obtain ⟨hpos, rfl⟩ := when_eq_some.mp hs
        exact h.post hpos
    | initBegin d =>
        cases hs
        exact LendInv.initBegin hok
    | initStep i => exact h.initStep hs

/-- In every interleaving in which `init` begins with nothing lent and nobody between the steps
of a call, and nobody takes a token while it runs, the counters are true in every state. -/
theorem counters_truthful {s : Lending} (h : lendSys.Reaches InitOk s) : Truthful s :=
  (lend_inductive.invariant h).truthful

/-- A pool of one connection, as its constructor makes it. -/
def onePool : MysqlPool where
  maxConn := 1
  curConn := 0
  freeConn := 1
  connList := [⟨0, { MysqlDefine.default with maxconn := 1 }⟩]
  reserve := 1
  next := 1
  inited := { MysqlDefine.default with maxconn := 1 }

theorem onePool_start : lendSys.init (.start onePool) :=
  ⟨fun _ _ => true, { MysqlDefine.default with maxconn := 1 }, onePool, rfl, rfl⟩

/-- The connection is lent and returned, `init` makes two, and one of them is lent. -/
def reconfigureTrace : List LendAct :=
  [.check, .wait, .pop, .push ⟨0, { MysqlDefine.default with maxconn := 1 }⟩, .post,
    .initBegin { MysqlDefine.default with maxconn := 2 }, .initStep 0, .initStep 0, .initStep 0,
    .initStep 0, .check, .wait, .pop]

theorem counters_truthful_two : ∃ s, lendSys.Reaches InitOk s ∧ s.lent.length = 1 ∧
    s.pool.maxConn = 2 ∧ Truthful s := by
  have hrun : ∃ s, lendSys.Reaches InitOk s ∧
      decide (s.lent.length = 1 ∧ s.pool.maxConn = 2) = true :=
    TSys.exists_reaches (g := fun s a => decide (InitOk s a)) (l := reconfigureTrace)
      (fun _ _ h => of_decide_eq_true h) onePool_start (by decide)
  obtain ⟨s, hs, htest⟩ := hrun
  obtain ⟨hlent, hmax⟩ := of_decide_eq_true htest
  exact ⟨s, hs, hlent, hmax, counters_truthful hs⟩

/-- `init` runs again while the connection is lent, and then it is released. -/
def lentTrace : List LendAct :=
  [.check, .wait, .pop, .initBegin { MysqlDefine.default with maxconn := 1 }, .initStep 0,
    .initStep 0, .initStep 0, .push ⟨0, { MysqlDefine.default with maxconn := 1 }⟩, .post]

/-- No call is under way, minus one connection is lent and two are in a pool of one. -/
theorem counters_negative : ∃ s, lendSys.Reachable s ∧ s.Quiet ∧ s.lent = [] ∧
    s.pool.curConn = -1 ∧ s.pool.maxConn = 1 ∧ s.pool.connList.length = 2 ∧ ¬ Truthful s := by
  have hrun : ∃ s, lendSys.Reachable s ∧ decide (s.checked = 0 ∧ s.granted = 0 ∧ s.posting = 0 ∧
      s.inits = [] ∧ s.lent = [] ∧ s.pool.curConn = -1 ∧ s.pool.maxConn = 1 ∧
      s.pool.connList.length = 2) = true :=
    TSys.exists_reachable (l := lentTrace) onePool_start (by decide)
  obtain ⟨s, hs, htest⟩ := hrun
  obtain ⟨hchecked, hgranted, hposting, hinits, hlent, hcur, hmax, hlen⟩ := of_decide_eq_true htest
  refine ⟨s, hs, ⟨hchecked, hgranted, hposting, hinits⟩, hlent, hcur, hmax, hlen, fun htrue => ?_⟩
  have hnonneg := htrue.curConn
  rw [hcur] at hnonneg
  omega

end Gxh.Db
