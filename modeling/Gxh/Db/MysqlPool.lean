import Gxh.Config.ConfigVar

/-!
# The database pool

`Mysql_pool` (`mysql_pool.cc`): free connections in a list, three counters and a semaphore. The
functions here are its calls when nobody else uses the pool.

* `onDbChange` is the listener on `db`, which initialises the pool from `getValue()`. While it
  runs that is still the old value, so the pool is always one change behind.
* `execute` is what `Query`, `Insert`, `Delete` and `Update` do; a statement that fails leaves
  without `ReleaseConnection`.

The members that only keep the arguments of `init` are left out.
-/

namespace Gxh.Db

open Config

/-- `MysqlDefine`; its `operator==` compares all six members. -/
structure MysqlDefine where
  url : String
  user : String
  password : String
  databasename : String
  port : Int
  maxconn : Int
  deriving DecidableEq, Repr

/-- `MysqlDefine()`. -/
def MysqlDefine.default : MysqlDefine where
  url := "192.168.138.128"
  user := "root"
  password := "1234"
  databasename := "yourdb"
  port := 3306
  maxconn := 10

/-- A `MYSQL*`: its address, which is never used again, and what it was connected with. -/
structure Conn where
  addr : Nat
  define : MysqlDefine
  deriving DecidableEq, Repr

/-- `Mysql_pool`. -/
structure MysqlPool where
  maxConn : Int
  curConn : Int
  freeConn : Int
  connList : List Conn
  /-- the value of the semaphore -/
  reserve : Nat
  /-- the next address -/
  next : Nat
  /-- The arguments of the last call of `init`; no function of the source reads it. -/
  inited : MysqlDefine
  deriving DecidableEq, Repr

/-- Whether the server takes the connection that gets this address. -/
abbrev Server := MysqlDefine → Nat → Bool

namespace MysqlPool

/-- `DestroyPool`: every connection in the list is closed. -/
def destroyPool (p : MysqlPool) : MysqlPool :=
  { p with curConn := 0, freeConn := 0, connList := [] }

/-- `mysql_init`, `mysql_real_connect` and `connList.push_back(con); ++m_FreeConn`. -/
def connect (p : MysqlPool) (d : MysqlDefine) : MysqlPool :=
  { p with
    connList := p.connList ++ [⟨p.next, d⟩]
    freeConn := p.freeConn + 1
    next := p.next + 1 }

/-- The loop of `init`; a refused connection is `exit(1)`. -/
def fill (server : Server) (d : MysqlDefine) : Nat → MysqlPool → Option MysqlPool
  | 0, p => some p
  | n + 1, p => if server d p.next then fill server d n (p.connect d) else none

/-- `sem_init(&cur, 0, m_FreeConn); reserve = cur`. -/
def semInit (p : MysqlPool) : MysqlPool := { p with reserve := p.freeConn.toNat }

/-- `m_MaxConn = m_FreeConn`. -/
def setMax (p : MysqlPool) : MysqlPool := { p with maxConn := p.freeConn }

def init (server : Server) (p : MysqlPool) (d : MysqlDefine) : Option MysqlPool :=
  (fill server d d.maxconn.toNat { p.destroyPool with inited := d }).map fun p => p.semInit.setMax

/-- `Mysql_pool::Mysql_pool`, while the variable has the value `d`. -/
def construct (server : Server) (d : MysqlDefine) : Option MysqlPool :=
  init server ⟨0, 0, 0, [], 0, 0, d⟩ d

/-- The lock section of `GetConnection`; `front()` of an empty list is undefined. -/
def popConn (p : MysqlPool) : Option (Conn × MysqlPool) :=
  match p.connList with
  | [] => none
  | c :: rest => some (c, { p with
      connList := rest
      freeConn := p.freeConn - 1
      curConn := p.curConn + 1 })

/-- The lock section of `ReleaseConnection`. -/
def pushConn (p : MysqlPool) (c : Conn) : MysqlPool :=
  { p with
    connList := p.connList ++ [c]
    freeConn := p.freeConn + 1
    curConn := p.curConn - 1 }

/-- `sem_wait`; `none` while it blocks. -/
def semWait (p : MysqlPool) : Option MysqlPool :=
  when (0 < p.reserve) { p with reserve := p.reserve - 1 }

def semPost (p : MysqlPool) : MysqlPool := { p with reserve := p.reserve + 1 }

/-- `GetConnection`; the connection is `none` for `NULL`. -/
def getConnection (p : MysqlPool) : Option (Option Conn × MysqlPool) :=
  if p.connList.length = 0 then some (none, p)
  else p.semWait.bind fun p => p.popConn.map fun (c, p) => (some c, p)

/-- `ReleaseConnection` of a connection that is not `NULL`. -/
def releaseConnection (p : MysqlPool) (c : Conn) : MysqlPool := (p.pushConn c).semPost

end MysqlPool

/-! ## The listener -/

/-- `MysqlMgr::GetInstance()`: the first call runs the constructor. -/
def getInstance (server : Server) (current : MysqlDefine) : Option MysqlPool → Option MysqlPool
  | some p => some p
  | none => MysqlPool.construct server current

/-- The listener on `db`, which does not use its arguments. -/
def onDbChange (server : Server) : OnChange MysqlDefine (Option MysqlPool) :=
  fun current _old _new inst =>
    (getInstance server current inst).bind fun p => (p.init server current).map some

/-- `g_mysql_define`, once `MysqlInit` has run. -/
def dbVar (server : Server) (v : MysqlDefine) : ConfigVar MysqlDefine (Option MysqlPool) :=
  ConfigVar.addListener ⟨v, []⟩ (onDbChange server)

/-- The pool exists and was last initialised with this configuration. -/
def InitedWith (inst : Option MysqlPool) (d : MysqlDefine) : Prop := inst.map (·.inited) = some d

instance (inst : Option MysqlPool) (d : MysqlDefine) : Decidable (InitedWith inst d) :=
  inferInstanceAs (Decidable (_ = _))

/-- Each value differs from the one before it. -/
def Changing (v : MysqlDefine) : List MysqlDefine → Prop
  | [] => True
  | w :: rest => w ≠ v ∧ Changing w rest

/-- `P` holds between the variable before each call, and the variable and the pool after it;
a call that does not return says nothing. -/
def AfterEach {T σ : Type} [BEq T] (P : ConfigVar T σ → ConfigVar T σ → σ → Prop)
    (c : ConfigVar T σ) (s : σ) : List T → Prop
  | [] => True
  | v :: rest => ∀ c' s', c.setValue v s = some (c', s') → P c c' s' ∧ AfterEach P c' s' rest

theorem fill_frame {server : Server} {d : MysqlDefine} {n : Nat} {p p' : MysqlPool}
    (h : MysqlPool.fill server d n p = some p') :
    p'.inited = p.inited ∧ p'.curConn = p.curConn := by
  induction n generalizing p with
  | zero =>
      cases h
      exact ⟨rfl, rfl⟩
  | succ n ih =>
      unfold MysqlPool.fill at h
      split at h
      · have hrest : p'.inited = (p.connect d).inited ∧ p'.curConn = (p.connect d).curConn :=
          ih h
        exact hrest
      · cases h

theorem init_inited {server : Server} {d : MysqlDefine} {p p' : MysqlPool}
    (h : p.init server d = some p') : p'.inited = d := by
  unfold MysqlPool.init at h
  rw [Option.map_eq_some_iff] at h
  obtain ⟨q, hq, rfl⟩ := h
  exact (fill_frame hq).1

/-- A server that takes every connection lets `init` return. -/
theorem init_returns {server : Server} (hserver : ∀ d n, server d n = true) (p : MysqlPool)
    (d : MysqlDefine) : ∃ p', p.init server d = some p' := by
  have hfill : ∀ n (q : MysqlPool), ∃ q', MysqlPool.fill server d n q = some q' := by
    intro n
    induction n with
    | zero => exact fun q => ⟨q, rfl⟩
    | succ n ih =>
        intro q
        unfold MysqlPool.fill
        rw [if_pos (hserver d q.next)]
        exact ih (q.connect d)
  obtain ⟨q, hq⟩ := hfill d.maxconn.toNat { p.destroyPool with inited := d }
  exact ⟨q.semInit.setMax, by simp [MysqlPool.init, hq]⟩

/-- The listener initialises the pool with what the variable holds while it runs. -/
theorem onDbChange_inited {server : Server} {current old new : MysqlDefine}
    {inst inst' : Option MysqlPool} (h : onDbChange server current old new inst = some inst') :
    InitedWith inst' current := by
  unfold onDbChange at h
  obtain ⟨p, -, hp⟩ := Option.bind_eq_some_iff.mp h
  rw [Option.map_eq_some_iff] at hp
  obtain ⟨q, hq, rfl⟩ := hp
  show some q.inited = some current
  rw [init_inited hq]

theorem onDbChange_returns {server : Server} (hserver : ∀ d n, server d n = true)
    (current old new : MysqlDefine) (inst : Option MysqlPool) :
    ∃ inst', onDbChange server current old new inst = some inst' := by
  have hget : ∃ p, getInstance server current inst = some p := by
    cases inst with
    | some p => exact ⟨p, rfl⟩
    | none => exact init_returns hserver _ current
  obtain ⟨p, hp⟩ := hget
  obtain ⟨q, hq⟩ := init_returns hserver p current
  exact ⟨some q, by simp [onDbChange, hp, hq]⟩

/-- One call that changes the value. -/
theorem setValue_db {server : Server} {v w : MysqlDefine} (hne : w ≠ v)
    (inst : Option MysqlPool) :
    (dbVar server v).setValue w inst =
      (onDbChange server v v w inst).map fun inst => (dbVar server w, inst) := by
  have hbeq : ¬ (w == v) = true := by simpa using hne
  unfold ConfigVar.setValue
  rw [if_neg (show ¬ (w == (dbVar server v).val) = true from hbeq)]
  show Option.map _ ((onDbChange server v v w inst).bind some) = _
  cases onDbChange server v v w inst with
  | none => rfl
  | some inst' => rfl

/-- For every initial value, whether the pool exists or not, and every sequence of changes:
after each call that returns the pool was last initialised with the value the call has replaced
and not with the one `getValue()` returns; and the calls do return if the server takes the
connections. -/
theorem pool_lags (server : Server) (v : MysqlDefine) (inst : Option MysqlPool)
    (vs : List MysqlDefine) (h : Changing v vs) :
    AfterEach (fun before after inst =>
      InitedWith inst before.getValue ∧ ¬ InitedWith inst after.getValue)
      (dbVar server v) inst vs ∧
    ((∀ d n, server d n = true) → ((dbVar server v).setValues inst vs).isSome = true) := by
  induction vs generalizing v inst with
  | nil => exact ⟨trivial, fun _ => rfl⟩
  | cons w rest ih =>
      obtain ⟨hne, hrest⟩ := h
      refine ⟨fun c' inst' hset => ?_, fun hserver => ?_⟩
      · rw [setValue_db hne, Option.map_eq_some_iff] at hset
        obtain ⟨inst₁, hcb, heq⟩ := hset
        cases heq
        have hold : InitedWith inst' v := onDbChange_inited hcb
        refine ⟨⟨hold, fun hnew => ?_⟩, (ih w inst' hrest).1⟩
        -- both would be the arguments of the last `init`
        have hsame : some v = some w := hold.symm.trans hnew
        cases hsame
        exact hne rfl
      · obtain ⟨inst₁, hcb⟩ := onDbChange_returns hserver v v w inst
        show (((dbVar server v).setValue w inst).bind _).isSome = true
        rw [setValue_db hne, hcb]
        exact (ih w inst₁ hrest).2 hserver

/-- The default is changed to another host, and back. -/
theorem pool_lags_host :
    let other := { MysqlDefine.default with url := "10.0.0.2" }
    let db := dbVar (fun _ _ => true) .default
    AfterEach (fun before after inst =>
      InitedWith inst before.getValue ∧ ¬ InitedWith inst after.getValue)
      db none [other, .default] ∧
    (db.setValues none [other, .default]).isSome = true := by
  have h := pool_lags (fun _ _ => true) .default none
    [{ MysqlDefine.default with url := "10.0.0.2" }, .default] (by simp [Changing]; decide)
  exact ⟨h.1, h.2 fun _ _ => rfl⟩

/-- After the first change the pool is connected to the default host. -/
theorem pool_not_reconfigured :
    let other := { MysqlDefine.default with url := "10.0.0.2", maxconn := 1 }
    ∃ db inst, (dbVar (fun _ _ => true) .default).setValue other none = some (db, inst) ∧
      db.getValue = other ∧ InitedWith inst .default ∧ ¬ InitedWith inst other := by
  refine ⟨_, _, rfl, rfl, by decide, by decide⟩

/-! ## Statements -/

/-- The four operations on a statement. -/
inductive Op
  | Query
  | Insert
  | Delete
  | Update
  deriving DecidableEq, Repr

/-- A row of a result: columns, each of which may be `NULL`. -/
abbrev Row := List (Option String)

/-- What the server makes of a statement: whether `mysql_query` succeeds, and what
`mysql_store_result` returns, `none` for `NULL`. -/
structure Outcome where
  ok : Bool
  result : Option (List Row)
  deriving DecidableEq, Repr

/-- How a call is left. -/
inductive Exit
  | returns (b : Bool)
  /-- `std::string` of a `NULL` column throws -/
  | throws
  deriving DecidableEq, Repr

/-- How a call is left, and the rows it has put into `out`. -/
structure Answer where
  exit : Exit
  out : List (List String)
  deriving DecidableEq, Repr

/-- The loop of `Query` over the rows: those it reads, and whether it reads all. -/
def readRows : List Row → List (List String) × Bool
  | [] => ([], true)
  | row :: rest =>
      match row.mapM id with
      | none => ([], false)
      | some columns => (columns :: (readRows rest).1, (readRows rest).2)

namespace MysqlPool

/-- The part the four operations share. `none`: `GetConnection` blocks, or the process ends. -/
def withStatement (p : MysqlPool) (o : Outcome)
    (body : Conn → MysqlPool → Option (Answer × MysqlPool)) : Option (Answer × MysqlPool) :=
  p.getConnection.bind fun
    | (none, p) => some (⟨.returns false, []⟩, p)
    | (some con, p) => if o.ok then body con p else some (⟨.returns false, []⟩, p)

/-- `Query`; `mysql_num_fields` of a `NULL` result ends the process. -/
def query (p : MysqlPool) (o : Outcome) : Option (Answer × MysqlPool) :=
  p.withStatement o fun con p =>
    o.result.map fun rows =>
      if (readRows rows).2 then (⟨.returns true, (readRows rows).1⟩, p.releaseConnection con)
      else (⟨.throws, (readRows rows).1⟩, p)

def insert (p : MysqlPool) (o : Outcome) : Option (Answer × MysqlPool) :=
  p.withStatement o fun con p => some (⟨.returns true, []⟩, p.releaseConnection con)

def delete (p : MysqlPool) (o : Outcome) : Option (Answer × MysqlPool) :=
  p.withStatement o fun con p => some (⟨.returns true, []⟩, p.releaseConnection con)

def update (p : MysqlPool) (o : Outcome) : Option (Answer × MysqlPool) :=
  p.withStatement o fun con p => some (⟨.returns true, []⟩, p.releaseConnection con)

def execute (p : MysqlPool) : Op → Outcome → Option (Answer × MysqlPool)
  | .Query => p.query
  | .Insert => p.insert
  | .Delete => p.delete
  | .Update => p.update

/-- What a call should leave as it was. -/
structure Same (p p' : MysqlPool) : Prop where
  freeConn : p'.freeConn = p.freeConn
  curConn : p'.curConn = p.curConn
  reserve : p'.reserve = p.reserve
  connList : p'.connList.Perm p.connList

/-- Each call of a sequence leaves the pool as it was; one that ends the process says nothing
about those after it. -/
def KeptBy (p : MysqlPool) : List (Op × Outcome) → Prop
  | [] => True
  | (op, o) :: rest => ∀ a p', p.execute op o = some (a, p') → Same p p' ∧ p'.KeptBy rest

/-- Nobody is between the steps of a call. -/
structure Idle (p : MysqlPool) : Prop where
  freeConn : p.freeConn = p.connList.length
  reserve : p.reserve = p.connList.length

end MysqlPool

/-- `mysql_query` succeeds, and `Query` meets no `NULL` column. -/
def Outcome.Clean (o : Outcome) (op : Op) : Prop :=
  o.ok = true ∧ (op = .Query → ∀ rows, o.result = some rows → ∀ row ∈ rows, none ∉ row)

/-- Every statement is clean, up to a `NULL` result. -/
def AllClean : List (Op × Outcome) → Prop
  | [] => True
  | (op, o) :: rest => o.Clean op ∧ ((op = .Query ∧ o.result = none) ∨ AllClean rest)

theorem mapM_id_eq_none {row : Row} : row.mapM id = none ↔ none ∈ row := by
  induction row with
  | nil => simp
  | cons column rest ih =>
      cases column with
      | none => simp
      | some x =>
          cases hrest : rest.mapM id with
          | none => simp [List.mapM_cons, hrest, ih.mp hrest]
          | some columns =>
              have hno : none ∉ rest := fun hmem => by
                rw [ih.mpr hmem] at hrest
                cases hrest
              simp [List.mapM_cons, hrest, hno]

/-- The loop reads all rows exactly when no column is `NULL`. -/
theorem readRows_all {rows : List Row} : (readRows rows).2 = true ↔ ∀ row ∈ rows, none ∉ row := by
  induction rows with
  | nil => simp [readRows]
  | cons row rest ih =>
      unfold readRows
      cases hrow : row.mapM id with
      | none =>
          have hmem := mapM_id_eq_none.mp hrow
          simp [hmem]
      | some columns =>
          have hno : none ∉ row := fun hmem => by
            rw [mapM_id_eq_none.mpr hmem] at hrow
            cases hrow
          simp [ih, hno]

namespace MysqlPool

theorem fill_idle {server : Server} {d : MysqlDefine} {n : Nat} {p p' : MysqlPool}
    (h : fill server d n p = some p') (hp : p.freeConn = p.connList.length) :
    p'.freeConn = p'.connList.length ∧ p'.connList.length = p.connList.length + n := by
  induction n generalizing p with
  | zero =>
      cases h
      exact ⟨hp, rfl⟩
  | succ n ih =>
      unfold fill at h
      split at h
      · have hlen : (p.connect d).connList.length = p.connList.length + 1 := by
          simp [connect]
        have hfree : (p.connect d).freeConn = (p.connect d).connList.length := by
          rw [hlen]
          show p.freeConn + 1 = _
          rw [hp]
          rfl
        obtain ⟨h1, h2⟩ := ih h hfree
        exact ⟨h1, by omega⟩
      · cases h

/-- After `init` nobody is between the steps of a call, and the pool has `maxconn` connections,
all of them free. -/
theorem init_idle {server : Server} {d : MysqlDefine} {p p' : MysqlPool}
    (h : p.init server d = some p') : p'.Idle ∧ p'.connList.length = d.maxconn.toNat ∧
      p'.curConn = 0 ∧ p'.maxConn = p'.freeConn := by
  unfold init at h
  rw [Option.map_eq_some_iff] at h
  obtain ⟨q, hq, rfl⟩ := h
  obtain ⟨hfree, hlen⟩ := fill_idle hq rfl
  refine ⟨⟨hfree, ?_⟩, hlen.trans (Nat.zero_add _), (fill_frame hq).2, rfl⟩
  show q.freeConn.toNat = q.connList.length
  rw [hfree]
  rfl

variable {p : MysqlPool}

/-- The pool while a call has its first connection. -/
def taken (p : MysqlPool) (rest : List Conn) : MysqlPool :=
  { p with
    connList := rest
    freeConn := p.freeConn - 1
    curConn := p.curConn + 1
    reserve := p.reserve - 1 }

theorem getConnection_nil (h : p.connList = []) : p.getConnection = some (none, p) := by
  simp [getConnection, h]

theorem getConnection_cons (hp : p.Idle) {c : Conn} {rest : List Conn}
    (h : p.connList = c :: rest) : p.getConnection = some (some c, p.taken rest) := by
  have hsem : 0 < p.reserve := by
    rw [hp.reserve, h]
    exact Nat.succ_pos _
  simp [getConnection, semWait, popConn, when, hsem, h, taken]

/-- Without a connection every operation returns `false`. -/
theorem execute_nil (h : p.connList = []) (op : Op) (o : Outcome) :
    p.execute op o = some (⟨.returns false, []⟩, p) := by
  cases op with
  | Query => simp [execute, query, withStatement, getConnection_nil h]
  | Insert => simp [execute, insert, withStatement, getConnection_nil h]
  | Delete => simp [execute, delete, withStatement, getConnection_nil h]
  | Update => simp [execute, update, withStatement, getConnection_nil h]

/-- An operation on its first connection: it is released after a clean statement, and kept after
any other. -/
theorem execute_cons (hp : p.Idle) (op : Op) (o : Outcome) {c : Conn} {rest : List Conn}
    (h : p.connList = c :: rest) :
    (o.Clean op → ∀ a p', p.execute op o = some (a, p') →
      p' = (p.taken rest).releaseConnection c) ∧
    (¬ o.Clean op → ∃ a, p.execute op o = some (a, p.taken rest)) := by
  have hget := getConnection_cons hp h
  -- the three operations without a result go the same way
  have hsimple : ∀ {q : Option (Answer × MysqlPool)},
      q = p.withStatement o (fun con p => some (⟨.returns true, []⟩, p.releaseConnection con)) →
      (o.ok = true → ∀ a p', q = some (a, p') → p' = (p.taken rest).releaseConnection c) ∧
      (o.ok = false → ∃ a, q = some (a, p.taken rest)) := by
    rintro q rfl
    refine ⟨fun hok a p' heq => ?_, fun hfail => ?_⟩
    · simp only [withStatement, hget, Option.bind_some, hok, if_true, Option.some.injEq,
        Prod.mk.injEq] at heq
      exact heq.2.symm
    · exact ⟨_, by simp [withStatement, hget, hfail]; rfl⟩
  have hclean : op ≠ .Query → (o.Clean op ↔ o.ok = true) := by
    intro hop
    simp [Outcome.Clean, hop]
  cases op with
  | Query =>
      refine ⟨fun hc a p' heq => ?_, fun hc => ?_⟩
      · simp only [execute, query, withStatement, hget, Option.bind_some, hc.1, if_true,
          Option.map_eq_some_iff] at heq
        obtain ⟨rows, hrows, heq⟩ := heq
        rw [if_pos (readRows_all.mpr (hc.2 rfl rows hrows))] at heq
        cases heq
        rfl
      · cases hok : o.ok with
        | false => exact ⟨_, by simp [execute, query, withStatement, hget, hok]; rfl⟩
        | true =>
            -- a row stops the loop
            have hrows : ∃ rows, o.result = some rows ∧ ¬ (readRows rows).2 = true := by
              by_contra hall
              simp only [not_exists, not_and, not_not] at hall
              exact hc ⟨hok, fun _ rows hr => readRows_all.mp (hall rows hr)⟩
            obtain ⟨rows, hr, hstop⟩ := hrows
            refine ⟨⟨.throws, (readRows rows).1⟩, ?_⟩
            simp [execute, query, withStatement, hget, hok, hr, hstop]
  | Insert =>
      have hs := hsimple (q := p.execute .Insert o) rfl
      rw [hclean (by simp), Bool.not_eq_true]
      exact hs
  | Delete =>
      have hs := hsimple (q := p.execute .Delete o) rfl
      rw [hclean (by simp), Bool.not_eq_true]
      exact hs
  | Update =>
      have hs := hsimple (q := p.execute .Update o) rfl
      rw [hclean (by simp), Bool.not_eq_true]
      exact hs

/-- A clean statement ends the process exactly if its result is `NULL`. -/
theorem execute_eq_none (hp : p.Idle) {op : Op} {o : Outcome} {c : Conn} {rest : List Conn}
    (h : p.connList = c :: rest) (hc : o.Clean op) :
    p.execute op o = none ↔ op = .Query ∧ o.result = none := by
  have hget := getConnection_cons hp h
  cases op with
  | Query => simp [execute, query, withStatement, hget, hc.1]
  | Insert => simp [execute, insert, withStatement, hget, hc.1]
  | Delete => simp [execute, delete, withStatement, hget, hc.1]
  | Update => simp [execute, update, withStatement, hget, hc.1]

/-- Taking a connection and giving it back moves it to the end of the list. -/
theorem taken_release (hp : p.Idle) {c : Conn} {rest : List Conn} (h : p.connList = c :: rest) :
    Same p ((p.taken rest).releaseConnection c) ∧ ((p.taken rest).releaseConnection c).Idle := by
  have hlen : p.connList.length = rest.length + 1 := by
    rw [h]
    rfl
  have hfree := hp.freeConn
  have hres := hp.reserve
  refine ⟨⟨?_, ?_, ?_, ?_⟩, ?_, ?_⟩
  · show p.freeConn - 1 + 1 = p.freeConn
    omega
  · show p.curConn + 1 - 1 = p.curConn
    omega
  · show p.reserve - 1 + 1 = p.reserve
    omega
  · show (rest ++ [c]).Perm p.connList
    rw [h]
    exact List.perm_append_singleton c rest
  · show p.freeConn - 1 + 1 = ((rest ++ [c]).length : Int)
    simp only [List.length_append, List.length_singleton]
    omega
  · show p.reserve - 1 + 1 = (rest ++ [c]).length
    simp only [List.length_append, List.length_singleton]
    omega

theorem not_same_taken {c : Conn} {rest : List Conn} (h : p.connList = c :: rest) :
    ¬ Same p (p.taken rest) := by
  intro hsame
  have hlen := hsame.connList.length_eq
  rw [h] at hlen
  exact absurd hlen (Nat.ne_of_lt (Nat.lt_succ_self rest.length))

/-- Over a whole sequence. -/
theorem keptBy_iff (hp : p.Idle) (ops : List (Op × Outcome)) :
    p.KeptBy ops ↔ p.connList = [] ∨ AllClean ops := by
  induction ops generalizing p with
  | nil => simp [KeptBy, AllClean]
  | cons call rest ih =>
      obtain ⟨op, o⟩ := call
      cases hlist : p.connList with
      | nil =>
          have hsame : Same p p := ⟨rfl, rfl, rfl, .refl _⟩
          have hrest : p.KeptBy rest := (ih hp).mpr (.inl hlist)
          simp only [KeptBy, execute_nil hlist, true_or, iff_true]
          intro a p' heq
          cases heq
          exact ⟨hsame, hrest⟩
      | cons c conns =>
          obtain ⟨hkeep, hlose⟩ := execute_cons hp op o hlist
          have hnone : o.Clean op → (p.execute op o = none ↔ op = .Query ∧ o.result = none) :=
            execute_eq_none hp hlist
          obtain ⟨hsame, hidle⟩ := taken_release hp hlist
          have hne : ((p.taken conns).releaseConnection c).connList ≠ [] := by
            show conns ++ [c] ≠ []
            simp
          simp only [KeptBy, AllClean, reduceCtorEq, false_or]
          constructor
          · intro hall
            have hclean : o.Clean op := by
              by_contra hc
              obtain ⟨a, ha⟩ := hlose hc
              exact not_same_taken hlist (hall a _ ha).1
            refine ⟨hclean, ?_⟩
            rcases hx : p.execute op o with _ | ⟨a, p'⟩
            · exact .inl ((hnone hclean).mp hx)
            · have hrest := (hall a p' hx).2
              rw [hkeep hclean a p' hx, ih hidle] at hrest
              exact .inr (hrest.resolve_left hne)
          · rintro ⟨hclean, hend⟩ a p' hx
            obtain rfl := hkeep hclean a p' hx
            refine ⟨hsame, (ih hidle).mpr (.inr (hend.resolve_left fun hcrash => ?_))⟩
            rw [(hnone hclean).mpr hcrash] at hx
            cases hx

end MysqlPool

/-- For every configuration and every sequence of calls on the pool it makes: each call leaves
counters, semaphore and connections as they were exactly if the pool has no connections or no
statement fails and `Query` meets no `NULL` column. -/
theorem queries_keep_pool (server : Server) (d : MysqlDefine) {p : MysqlPool}
    (h : MysqlPool.construct server d = some p) (ops : List (Op × Outcome)) :
    p.KeptBy ops ↔ d.maxconn ≤ 0 ∨ AllClean ops := by
  obtain ⟨hidle, hlen, -, -⟩ := MysqlPool.init_idle h
  rw [MysqlPool.keptBy_iff hidle, ← List.length_eq_zero_iff, hlen, Int.toNat_eq_zero]

/-- Three statements on a pool of two connections. -/
theorem queries_keep_pool_two :
    let d := { MysqlDefine.default with maxconn := 2 }
    ∃ p, MysqlPool.construct (fun _ _ => true) d = some p ∧
      p.KeptBy [(.Query, ⟨true, some [[some "1"]]⟩), (.Insert, ⟨true, none⟩),
        (.Update, ⟨true, none⟩)] := by
  refine ⟨_, rfl, (queries_keep_pool (fun _ _ => true) { MysqlDefine.default with maxconn := 2 }
    rfl _).mpr (.inr ?_)⟩
  simp [AllClean, Outcome.Clean]

/-- One failed `Insert` on a pool of one connection, and the next call finds none. -/
theorem failed_insert_leaks :
    let d := { MysqlDefine.default with maxconn := 1 }
    ∃ p p' a, MysqlPool.construct (fun _ _ => true) d = some p ∧
      p.execute .Insert ⟨false, none⟩ = some (a, p') ∧ a.exit = .returns false ∧
      p'.freeConn = 0 ∧ p'.curConn = 1 ∧ p'.connList = [] ∧
      p'.execute .Query ⟨true, some []⟩ = some (⟨.returns false, []⟩, p') ∧
      ¬ p.KeptBy [(.Insert, ⟨false, none⟩)] := by
  refine ⟨_, _, _, rfl, rfl, rfl, rfl, rfl, rfl, rfl, fun hkept => ?_⟩
  have hlen := (hkept _ _ rfl).1.connList.length_eq
  cases hlen

end Gxh.Db
