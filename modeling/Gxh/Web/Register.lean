import Gxh.Lib.Positions
import Gxh.Lib.TSys
import Gxh.Web.TinyWebserver

/-!
# Concurrent registrations

Any number of requests for `check_register_page`. The database executes the select and the insert
of a request one at a time, and between the two it executes those of other requests. Names are
equal when their collation keys are (`collate`), as MySQL compares them.

The database itself is an input: `Lawful` says what it does with the two statements. In
`registered_once` no name is looked up while a request for it is on its way from its select to its
insert.
-/

namespace Gxh.TinyWebserver

open HttpParser (bytes)
open Http (cStr)
open SqlLiteral

variable {K : Type} [DecidableEq K]

/-- A row of the table `user`. -/
structure Row where
  name : List UInt8
  passwd : List UInt8
  deriving DecidableEq, Repr

/-- What the database answers to a select and what it makes of the table by an insert. -/
structure Database where
  select : List UInt8 → List Row → List (List (List UInt8))
  insert : List UInt8 → List Row → List Row

/-- The rows of a name. -/
def named (collate : List UInt8 → K) (name : List UInt8) (row : Row) : Bool :=
  collate row.name = collate name

/-- The two statements are executed as they read; nothing is said about other texts. -/
structure Database.Lawful (db : Database) (collate : List UInt8 → K) : Prop where
  select : ∀ text name, IsSelect text name → ∀ table,
    (db.select text table).Perm ((table.filter (named collate name)).map fun row => [row.passwd])
  insert : ∀ text name passwd, IsInsert text name passwd → ∀ table,
    (db.insert text table).Perm (⟨name, passwd⟩ :: table)

/-! ## Requests -/

/-- Where a request stands. -/
inductive Stage
  | started
  /-- `res` is empty: the insert comes next -/
  | absent
  | answered (page : Page)
  deriving DecidableEq, Repr

structure Request where
  user : List UInt8
  password : List UInt8
  stage : Stage
  deriving DecidableEq, Repr

structure Registration where
  table : List Row
  requests : List Request
  deriving DecidableEq, Repr

/-- How an insert ends. The reply of one that was executed may be lost. -/
inductive Insertion
  | done
  | refused
  | lost
  deriving DecidableEq, Repr

inductive RegisterAct
  | arrive (user password : List UInt8)
  /-- the `Query` of request `i`; `ok` is false when it returns false -/
  | select (i : Nat) (ok : Bool)
  /-- its `Insert` -/
  | insert (i : Nat) (how : Insertion)
  deriving DecidableEq, Repr

/-- Behind `Query`, with the result. -/
def Stage.afterQuery : Option (List (List (List UInt8))) → Stage
  | some res => if !res.isEmpty then .answered .registerError else .absent
  | none => .answered .registerError

/-- Behind `Insert`. -/
def Stage.afterInsert (ok : Bool) : Stage :=
  if ok then .answered .log else .answered .registerError

namespace Registration

def setStage (s : Registration) (i : Nat) (r : Request) (stage : Stage) : Registration :=
  { s with requests := s.requests.set i { r with stage } }

end Registration

open Registration

/-- One exchange with the database, or a new request. -/
def registerStep (db : Database) (s : Registration) : RegisterAct → Option Registration
  | .arrive user password => some { s with requests := s.requests ++ [⟨user, password, .started⟩] }
  | .select i ok =>
      s.requests[i]?.bind fun r =>
        when (r.stage = .started) (s.setStage i r
          (.afterQuery (if ok then some (db.select (cStr (selectText r.user)) s.table) else none)))
  | .insert i how =>
      s.requests[i]?.bind fun r =>
        when (r.stage = .absent)
          { s.setStage i r (.afterInsert (how = .done)) with
            table := if how = .refused then s.table
              else db.insert (cStr (insertText r.user r.password)) s.table }

def registerSys (db : Database) (table : List Row) : TSys Registration RegisterAct where
  init := fun s => s = ⟨table, []⟩
  step := registerStep db

/-- The stages a request goes through are the branches of `check_register_page`. -/
theorem checkRegisterPage_stages (pool : Pool) (user password : List UInt8) :
    Stage.answered (checkRegisterPage pool user password).1 =
      if Stage.afterQuery (pool.query (cStr (selectText user))) = .absent then
        .afterInsert (pool.insert (cStr (insertText user password)))
      else .afterQuery (pool.query (cStr (selectText user))) := by
  unfold checkRegisterPage Stage.afterQuery Stage.afterInsert
  dsimp only
  cases pool.query (cStr (selectText user)) with
  | none => rfl
  | some res =>
      cases res with
      | nil =>
          cases pool.insert (cStr (insertText user password)) with
          | true => rfl
          | false => rfl
      | cons row rest => rfl

/-! ## At most once -/

/-- Between its select and its insert. -/
def pending (collate : List UInt8 → K) (k : K) (r : Request) : Bool :=
  collate r.user = k ∧ r.stage = .absent

/-- Answered with the page of a successful registration. -/
def succeeded (collate : List UInt8 → K) (k : K) (r : Request) : Bool :=
  collate r.user = k ∧ r.stage = .answered .log

def keyed (collate : List UInt8 → K) (k : K) (row : Row) : Bool := collate row.name = k

/-- The parameters are those of faithful statements, and a name is looked up only while no request
for it is between its select and its insert. -/
def Serial (collate : List UInt8 → K) (s : Registration) : RegisterAct → Prop
  | .arrive user password => Clean user ∧ Clean password
  | .select i _ => ∀ r, s.requests[i]? = some r →
      ∀ q ∈ s.requests, q.stage = .absent → collate q.user ≠ collate r.user
  | .insert _ _ => True

/-- Of a name that was not there at first: every success has its row, and there is at most one
row, or else one request that found none. -/
structure Once (collate : List UInt8 → K) (k : K) (s : Registration) : Prop where
  clean : ∀ r ∈ s.requests, Clean r.user ∧ Clean r.password
  rows : s.table.countP (keyed collate k) + s.requests.countP (pending collate k) ≤ 1
  successes : s.requests.countP (succeeded collate k) ≤ s.table.countP (keyed collate k)

variable {db : Database} {collate : List UInt8 → K} {k : K} {s s' : Registration} {r : Request}

theorem clean_setStage {i : Nat} (h : ∀ r ∈ s.requests, Clean r.user ∧ Clean r.password)
    (hr : s.requests[i]? = some r) (stage : Stage) :
    ∀ q ∈ (s.setStage i r stage).requests, Clean q.user ∧ Clean q.password := by
  intro q hq
  rcases List.mem_or_eq_of_mem_set hq with hq | rfl
  · exact h q hq
  · exact h r (List.mem_of_getElem? hr)

/-- A result is empty, or the answer is the error page. -/
theorem afterQuery_cases (res : Option (List (List (List UInt8)))) :
    Stage.afterQuery res = .absent ∨ Stage.afterQuery res = .answered .registerError := by
  cases res with
  | none => exact .inr rfl
  | some rows =>
      cases rows with
      | nil => exact .inl rfl
      | cons row rest => exact .inr rfl

/-- A select that finds nothing: there is no row of that name. -/
theorem absent_of_select (hdb : db.Lawful collate) (hclean : Clean r.user) {ok : Bool}
    (habsent : Stage.afterQuery (if ok then some (db.select (cStr (selectText r.user)) s.table)
      else none) = .absent) : s.table.countP (keyed collate (collate r.user)) = 0 := by
  cases ok with
  | false => cases habsent
  | true =>
      have hselect := hdb.select _ _ ((isSelect_iff r.user).mpr hclean) s.table
      rw [if_pos rfl] at habsent
      cases hres : db.select (cStr (selectText r.user)) s.table with
      | cons row rest =>
          rw [hres] at habsent
          cases habsent
      | nil =>
          rw [hres] at hselect
          have hfilter := List.map_eq_nil_iff.mp hselect.symm.eq_nil
          rw [List.countP_eq_zero]
          intro row hrow
          exact List.filter_eq_nil_iff.mp hfilter row hrow

theorem once_select {i : Nat} {ok : Bool} (hdb : db.Lawful collate) (h : Once collate k s)
    (hserial : Serial collate s (.select i ok)) (hr : s.requests[i]? = some r)
    (hstage : r.stage = .started) :
    Once collate k (s.setStage i r (.afterQuery
      (if ok then some (db.select (cStr (selectText r.user)) s.table) else none))) := by
  have hclean := h.clean r (List.mem_of_getElem? hr)
  have hrows := h.rows
  have hsuccesses := h.successes
  have hfound : Stage.afterQuery (if ok then some (db.select (cStr (selectText r.user)) s.table)
      else none) = .absent → s.table.countP (keyed collate (collate r.user)) = 0 :=
    absent_of_select hdb hclean.1
  have hcases := afterQuery_cases
    (if ok then some (db.select (cStr (selectText r.user)) s.table) else none)
  -- from here on it matters only whether the request has found no row
  generalize Stage.afterQuery (if ok then some (db.select (cStr (selectText r.user)) s.table)
    else none) = stage at hfound hcases ⊢
  have hpending := countP_set_add (p := pending collate k) { r with stage } hr
  have hsucceeded := countP_set_add (p := succeeded collate k) { r with stage } hr
  have hold : pending collate k r = false := by simp [pending, hstage]
  have hold' : succeeded collate k r = false := by simp [succeeded, hstage]
  have hnew' : succeeded collate k { r with stage } = false := by
    rcases hcases with rfl | rfl <;> simp [succeeded]
  rw [hold', hnew'] at hsucceeded
  rw [hold] at hpending
  refine ⟨clean_setStage h.clean hr stage, ?_, ?_⟩
  · show s.table.countP _ + (s.requests.set i { r with stage }).countP _ ≤ 1
    by_cases hnew : pending collate k { r with stage } = true
    · -- no row, and by the condition no other request of this name
      obtain ⟨hk, habsent⟩ : collate r.user = k ∧ stage = .absent := by simpa [pending] using hnew
      have hnone := hfound habsent
      rw [hk] at hnone
      have hothers : s.requests.countP (pending collate k) = 0 := by
        rw [List.countP_eq_zero]
        intro q hq hpend
        obtain ⟨hqk, hq'⟩ : collate q.user = k ∧ q.stage = .absent := by
          simpa [pending] using hpend
        exact hserial r hr q hq hq' (by rw [hqk, hk])
      rw [hnew] at hpending
      simp only [if_true, Bool.false_eq_true, if_false] at hpending
      omega
    · rw [Bool.not_eq_true] at hnew
      rw [hnew] at hpending
      simp only [Bool.false_eq_true, if_false] at hpending
      omega
  · show (s.requests.set i { r with stage }).countP _ ≤ s.table.countP _
    simp only [Bool.false_eq_true, if_false] at hsucceeded
    omega

/-- The rows after an insert, executed or not. -/
theorem countP_insert (hdb : db.Lawful collate) (hclean : Clean r.user ∧ Clean r.password)
    (how : Insertion) :
    (if how = .refused then s.table
      else db.insert (cStr (insertText r.user r.password)) s.table).countP (keyed collate k) =
    s.table.countP (keyed collate k) +
      if how ≠ .refused ∧ collate r.user = k then 1 else 0 := by
  by_cases hhow : how = .refused
  · simp [hhow]
  · have hinsert := hdb.insert _ _ _ ((isInsert_iff r.user r.password).mpr hclean) s.table
    rw [if_neg hhow, hinsert.countP_eq, List.countP_cons]
    simp [hhow, keyed]

theorem once_insert {i : Nat} {how : Insertion} (hdb : db.Lawful collate) (h : Once collate k s)
    (hr : s.requests[i]? = some r) (hstage : r.stage = .absent) :
    Once collate k { s.setStage i r (.afterInsert (how = .done)) with
      table := if how = .refused then s.table
        else db.insert (cStr (insertText r.user r.password)) s.table } := by
  have hclean := h.clean r (List.mem_of_getElem? hr)
  have hrows := h.rows
  have hsuccesses := h.successes
  have htable := countP_insert (s := s) (k := k) hdb hclean how
  have hpending := countP_set_add (p := pending collate k)
    { r with stage := .afterInsert (how = .done) } hr
  have hsucceeded := countP_set_add (p := succeeded collate k)
    { r with stage := .afterInsert (how = .done) } hr
  have hold : pending collate k r = decide (collate r.user = k) := by simp [pending, hstage]
  have hold' : succeeded collate k r = false := by simp [succeeded, hstage]
  have hnew : pending collate k { r with stage := .afterInsert (how = .done) } = false := by
    cases how <;> simp [pending, Stage.afterInsert]
  have hnew' : succeeded collate k { r with stage := .afterInsert (how = .done) } =
      decide (collate r.user = k ∧ how = .done) := by
    cases how <;> simp [succeeded, Stage.afterInsert]
  rw [hold, hnew] at hpending
  rw [hold', hnew'] at hsucceeded
  refine ⟨clean_setStage h.clean hr _, ?_, ?_⟩
  · show List.countP _ _ + (s.requests.set i _).countP _ ≤ 1
    rw [htable]
    by_cases hk : collate r.user = k
    · -- the request that was on its way has become a row, or nothing
      have hle : (if how ≠ .refused ∧ collate r.user = k then 1 else 0) ≤ 1 := by
        split <;> omega
      simp only [hk, decide_true, if_true, Bool.false_eq_true, if_false] at hpending hle ⊢
      omega
    · simp only [hk, decide_false, Bool.false_eq_true, if_false, and_false] at hpending ⊢
      omega
  · show (s.requests.set i _).countP _ ≤ List.countP _ _
    rw [htable]
    by_cases hdone : collate r.user = k ∧ how = .done
    · have hrow : how ≠ .refused ∧ collate r.user = k := ⟨by simp [hdone.2], hdone.1⟩
      rw [if_neg Bool.false_ne_true, if_pos (decide_eq_true hdone)] at hsucceeded
      rw [if_pos hrow]
      omega
    · rw [if_neg Bool.false_ne_true, if_neg (mt of_decide_eq_true hdone)] at hsucceeded
      omega

theorem once_step {a : RegisterAct} (hdb : db.Lawful collate) (h : Once collate k s)
    (hserial : Serial collate s a) (hs : registerStep db s a = some s') : Once collate k s' := by
  cases a with
  | arrive user password =>
      cases hs
      have hrows := h.rows
      have hsuccesses := h.successes
      refine ⟨?_, ?_, ?_⟩
      · intro r hr
        rcases List.mem_append.mp hr with hr | hr
        · exact h.clean r hr
        · rw [List.mem_singleton.mp hr]
          exact hserial
      · show s.table.countP _ + (s.requests ++ _).countP _ ≤ 1
        rw [List.countP_append, List.countP_singleton]
        simpa [pending] using hrows
      · show (s.requests ++ _).countP _ ≤ s.table.countP _
        rw [List.countP_append, List.countP_singleton]
        simpa [succeeded] using hsuccesses
  | select i ok =>
      obtain ⟨r, hr, hwhen⟩ := Option.bind_eq_some_iff.mp hs
      obtain ⟨hstage, rfl⟩ := when_eq_some.mp hwhen
      exact once_select hdb h hserial hr hstage
  | insert i how =>
      obtain ⟨r, hr, hwhen⟩ := Option.bind_eq_some_iff.mp hs
      obtain ⟨hstage, rfl⟩ := when_eq_some.mp hwhen
      exact once_insert hdb h hr hstage

/-- A name without a row in `table`: no key equal to its own there. -/
def New (collate : List UInt8 → K) (table : List Row) (name : List UInt8) : Prop :=
  ∀ row ∈ table, collate row.name ≠ collate name

theorem once_inductive {table : List Row} (hdb : db.Lawful collate) {name : List UInt8}
    (hnew : New collate table name) :
    (registerSys db table).Inductive (Serial collate) (Once collate (collate name)) where
  init := by
    rintro s rfl
    have hnone : table.countP (keyed collate (collate name)) = 0 := by
      rw [List.countP_eq_zero]
      intro row hrow
      simpa [keyed] using hnew row hrow
    refine ⟨by simp, ?_, by simp⟩
    show table.countP _ + List.countP _ [] ≤ 1
    rw [hnone]
    simp
  step := fun _ _ _ h hserial hs => once_step hdb h hserial hs

/-- The requests for a name that were answered with the success page, and its rows. -/
def successes (collate : List UInt8 → K) (name : List UInt8) (s : Registration) : Nat :=
  s.requests.countP (succeeded collate (collate name))

def rows (collate : List UInt8 → K) (name : List UInt8) (s : Registration) : Nat :=
  s.table.countP (keyed collate (collate name))

/-- In every run that meets the condition a new name is registered at most once. -/
theorem registered_once {table : List Row} (hdb : db.Lawful collate)
    (h : (registerSys db table).Reaches (Serial collate) s) {name : List UInt8}
    (hnew : New collate table name) : successes collate name s ≤ 1 ∧ rows collate name s ≤ 1 := by
  have honce := (once_inductive hdb hnew).invariant h
  have hrows := honce.rows
  have hsuccesses := honce.successes
  unfold successes rows
  omega

/-! ## A database -/

/-- A text behind a fixed beginning. -/
def after (head text : List UInt8) : Option (List UInt8) :=
  if head.isPrefixOf text then some (text.drop head.length) else none

/-- A database that knows the two statements and reads their literals. -/
def Database.reading (collate : List UInt8 → K) : Database where
  select text table :=
    match (after (bytes "select passwd from user where username = ") text).bind lex with
    | some (name, []) => (table.filter (named collate name)).map fun row => [row.passwd]
    | _ => []
  insert text table :=
    match (after (bytes "insert into user(username, passwd) values(") text).bind lex with
    | none => table
    | some (name, rest) =>
        match (after (bytes ", ") rest).bind lex with
        | none => table
        | some (passwd, rest') => if rest' = bytes ")" then table ++ [⟨name, passwd⟩] else table

theorem after_append (head rest : List UInt8) : after head (head ++ rest) = some rest := by
  unfold after
  rw [if_pos (by simp), List.drop_left]

theorem reading_lawful (collate : List UInt8 → K) : (Database.reading collate).Lawful collate where
  select := by
    rintro text name ⟨l, rfl, hl⟩ table
    have hlex : lex l = some (name, []) := hl
    unfold Database.reading
    dsimp only
    rw [after_append, Option.bind_some, hlex]
  insert := by
    rintro text name passwd ⟨l₁, l₂, rfl, hl₁, hl₂⟩ table
    have hlex₁ : lex (l₁ ++ (bytes ", " ++ (l₂ ++ bytes ")"))) =
        some (name, bytes ", " ++ (l₂ ++ bytes ")")) := by
      refine lex_append hl₁ ?_
      show some 44 ≠ some quote
      decide
    have hlex₂ : lex (l₂ ++ bytes ")") = some (passwd, bytes ")") := lex_append hl₂ (by decide)
    unfold Database.reading
    dsimp only
    simp only [List.append_assoc, after_append, Option.bind_some, hlex₁, hlex₂]
    rw [if_pos trivial]
    exact List.perm_append_singleton _ _

/-- A binary collation: names are equal when their bytes are. -/
def binary (name : List UInt8) : List UInt8 := name

def serialTest (s : Registration) : RegisterAct → Bool
  | .arrive user password => decide (Clean user ∧ Clean password)
  | .select i _ =>
      match s.requests[i]? with
      | none => true
      | some r => s.requests.all fun q => q.stage ≠ .absent || binary q.user ≠ binary r.user
  | .insert _ _ => true

theorem serial_of_test (s : Registration) (a : RegisterAct) (h : serialTest s a = true) :
    Serial binary s a := by
  cases a with
  | arrive user password =>
      have hclean : Clean user ∧ Clean password := of_decide_eq_true h
      exact hclean
  | select i ok =>
      intro r hr q hq hstage hname
      simp only [serialTest, hr] at h
      have htest := List.all_eq_true.mp h q hq
      simp [hstage, hname] at htest
  | insert i how => trivial

/-- Two requests for one name, one behind the other. -/
def oneAfterAnother : List RegisterAct :=
  [.arrive (bytes "bob") (bytes "1"), .arrive (bytes "bob") (bytes "2"), .select 0 true,
    .insert 0 .done, .select 1 true]

theorem registered_once_bob : ∃ s,
    (registerSys (Database.reading binary) []).Reaches (Serial binary) s ∧
    s.requests.map Request.stage = [.answered .log, .answered .registerError] ∧
    successes binary (bytes "bob") s ≤ 1 ∧ rows binary (bytes "bob") s ≤ 1 := by
  obtain ⟨s, hs, htest⟩ := TSys.exists_reaches serial_of_test (l := oneAfterAnother)
    (s := ⟨[], []⟩) (M := registerSys (Database.reading binary) [])
    (p := fun s => decide (s.requests.map Request.stage =
      [.answered .log, .answered .registerError])) rfl (by decide +kernel)
  have hnew : New binary [] (bytes "bob") := by
    intro row hrow
    cases hrow
  exact ⟨s, hs, of_decide_eq_true htest,
    registered_once (reading_lawful binary) hs hnew⟩

/-- Both look before either enters. -/
theorem registered_twice : ∃ s, (registerSys (Database.reading binary) []).Reachable s ∧
    New binary [] (bytes "bob") ∧ successes binary (bytes "bob") s = 2 ∧
    rows binary (bytes "bob") s = 2 := by
  obtain ⟨s, hs, htest⟩ := TSys.exists_reachable
    (l := [.arrive (bytes "bob") (bytes "1"), .arrive (bytes "bob") (bytes "2"), .select 0 true,
      .select 1 true, .insert 0 .done, .insert 1 .done])
    (s := ⟨[], []⟩) (M := registerSys (Database.reading binary) [])
    (p := fun s => decide (successes binary (bytes "bob") s = 2 ∧ rows binary (bytes "bob") s = 2))
    rfl (by decide +kernel)
  refine ⟨s, hs, ?_, of_decide_eq_true htest⟩
  intro row hrow
  cases hrow

end Gxh.TinyWebserver
