import Gxh.Lib.Positions
import Gxh.Web.Register

/-!
# Log-in sessions

Any number of requests for `check_log_page`, with `m_userpass` and the timers that take users out of
it. A request sends its select, which the database executes on the table of that moment, and gets
the reply later; in between other requests go on, and other clients change the table. A timer fires
at most `lag` milliseconds late. The database is an input, as in `Register`.

* `welcome_confirmed` — nobody is welcome with a password that was not the user's in the table of a
  select that was answered in the last five seconds;
* `session_lasts` — if no request goes to the database for a user of whom another request waits for
  it, a user who was confirmed stays in the table of users for the whole five seconds. Otherwise the
  timer of the first request ends the session of the second.
-/

namespace Gxh.TinyWebserver

open HttpParser (bytes)
open Http (cStr)

/-- The result of a `Query`; none when it returns false. -/
abbrev Reply := Option (List (List (List UInt8)))

/-- Where a request stands. -/
inductive LoginStage
  | querying
  /-- the select was executed at `asked`, on `table`, and the reply is on its way -/
  | replied (asked : Nat) (table : List Row) (res : Reply)
  | answered (page : Page) (time : Nat)
  deriving DecidableEq, Repr

structure Login where
  user : List UInt8
  password : List UInt8
  stage : LoginStage
  deriving DecidableEq, Repr

/-- A reply that gave the password of a request: when it came, and when and on which table its
select was executed. -/
structure Confirmation where
  time : Nat
  user : List UInt8
  password : List UInt8
  asked : Nat
  table : List Row
  deriving DecidableEq, Repr

/-- The clock in milliseconds, the table of the database, the tables of the server, the timers by
deadline and user, the requests, and the confirmations, which no function reads. -/
structure Logins where
  now : Nat
  table : List Row
  userpass : UserPass
  timers : List (Nat × List UInt8)
  logins : List Login
  confirmed : List Confirmation
  deriving DecidableEq, Repr

inductive LoginAct
  | arrive (user password : List UInt8)
  /-- the select of request `i` is executed; `ok` is false when `Query` is to return false -/
  | select (i : Nat) (ok : Bool)
  /-- the `Query` of request `i` returns -/
  | reply (i : Nat)
  /-- other clients of the database -/
  | change (table : List Row)
  | fire (k : Nat)
  | tick (d : Nat)
  deriving DecidableEq, Repr

/-- `Query` with `res[0][0] == password`. -/
def confirms (res : Reply) (password : List UInt8) : Bool :=
  match res with
  | none => false
  | some res => !res.isEmpty && (res.headD []).headD [] == password

namespace Logins

/-- `check_log_page` up to `Query`. -/
def arrived (s : Logins) (user password : List UInt8) : LoginStage :=
  if user.length ≠ 0 ∧ password.length ≠ 0 then
    match s.userpass.lookup user with
    | none => .querying
    | some pass => .answered (if pass == password then .welcome else .logError) s.now
  else .answered .logError s.now

def setStage (s : Logins) (i : Nat) (r : Login) (stage : LoginStage) : Logins :=
  { s with logins := s.logins.set i { r with stage } }

/-- `check_log_page` behind a `Query` that confirms the password. -/
def confirm (s : Logins) (r : Login) (asked : Nat) (table : List Row) : Logins :=
  { s with
    timers := s.timers ++ [(s.now + 5000, r.user)]
    userpass := (r.user, r.password) :: s.userpass
    confirmed := ⟨s.now, r.user, r.password, asked, table⟩ :: s.confirmed }

/-- `check_log_page` behind `Query`. -/
def afterQuery (s : Logins) (i : Nat) (r : Login) (asked : Nat) (table : List Row) (res : Reply) :
    Logins :=
  if confirms res r.password then
    (s.confirm r asked table).setStage i r (.answered .welcome s.now)
  else s.setStage i r (.answered .logError s.now)

/-- `erase`, with the timer that calls it. -/
def erase (s : Logins) (k : Nat) (user : List UInt8) : Logins :=
  { s with
    timers := s.timers.eraseIdx k
    userpass := s.userpass.filter fun entry => entry.1 != user }

end Logins

/-- What the `Query` of `user` comes to on `table`. -/
def Database.reply (db : Database) (table : List Row) (user : List UInt8) (ok : Bool) : Reply :=
  if ok then some (db.select (cStr (selectText user)) table) else none

open Logins

def loginStep (db : Database) (lag : Nat) (s : Logins) : LoginAct → Option Logins
  | .arrive user password =>
      some { s with logins := s.logins ++ [⟨user, password, s.arrived user password⟩] }
  | .select i ok =>
      s.logins[i]?.bind fun r =>
        when (r.stage = .querying)
          (s.setStage i r (.replied s.now s.table (db.reply s.table r.user ok)))
  | .reply i =>
      s.logins[i]?.bind fun r =>
        match r.stage with
        | .replied asked table res => some (s.afterQuery i r asked table res)
        | _ => none
  | .change table => some { s with table }
  | .fire k =>
      s.timers[k]?.bind fun timer => when (timer.1 ≤ s.now) (s.erase k timer.2)
  | .tick d => when (∀ timer ∈ s.timers, s.now + d ≤ timer.1 + lag) { s with now := s.now + d }

def loginSys (db : Database) (lag : Nat) : TSys Logins LoginAct where
  init := fun s => s.userpass = [] ∧ s.timers = [] ∧ s.logins = [] ∧ s.confirmed = []
  step := loginStep db lag

/-- The stages a request goes through are the branches of `check_log_page`. -/
theorem checkLogPage_stages (pool : Pool) (s : Logins) (user password : List UInt8) (i asked : Nat)
    (table : List Row) :
    let res := pool.query (cStr (selectText user))
    let r : Login := ⟨user, password, .replied asked table res⟩
    ((checkLogPage pool s.userpass user password).1,
        (checkLogPage pool s.userpass user password).2.2) =
      match s.arrived user password with
      | .answered page _ => (page, s.userpass)
      | _ => (if confirms res password then .welcome else .logError,
          (s.afterQuery i r asked table res).userpass) := by
  unfold checkLogPage arrived afterQuery confirms
  dsimp only
  by_cases hsize : user.length ≠ 0 ∧ password.length ≠ 0
  · rw [if_pos hsize, if_pos hsize]
    cases s.userpass.lookup user with
    | some pass => rfl
    | none =>
        cases pool.query (cStr (selectText user)) with
        | none => rfl
        | some res =>
            dsimp only
            split
            · rfl
            · rfl
  · rw [if_neg hsize, if_neg hsize]

/-! ## Confirmations -/

section

variable {K : Type} [DecidableEq K] {collate : List UInt8 → K} {db : Database} {lag : Nat}
  {s s' : Logins} {r : Login} {i k asked : Nat} {table : List Row} {res : Reply}
  {user password : List UInt8}

/-- A row of the table has the password for the user. -/
def Confirmation.Found (collate : List UInt8 → K) (c : Confirmation) : Prop :=
  ∃ row ∈ c.table, collate row.name = collate c.user ∧ row.passwd = c.password

/-- The first cell that a lawful database gives for a clean name is the password of a row. -/
theorem found_of_confirms (hdb : db.Lawful collate) (hclean : Clean user) {ok : Bool}
    (h : confirms (db.reply table user ok) password = true) :
    ∃ row ∈ table, collate row.name = collate user ∧ row.passwd = password := by
  cases ok with
  | false => cases h
  | true =>
      have hselect := hdb.select _ _ ((isSelect_iff user).mpr hclean) table
      have h : confirms (some (db.select (cStr (selectText user)) table)) password = true := h
      cases hres : db.select (cStr (selectText user)) table with
      | nil =>
          rw [hres] at h
          cases h
      | cons cells rest =>
          rw [hres] at h hselect
          obtain ⟨row, hrow, rfl⟩ := List.mem_map.mp (hselect.mem_iff.mp List.mem_cons_self)
          obtain ⟨hmem, hname⟩ := List.mem_filter.mp hrow
          exact ⟨row, hmem, of_decide_eq_true hname, beq_iff_eq.mp h⟩

theorem lookup_erase (l : UserPass) (user v : List UInt8) :
    (l.filter fun entry => entry.1 != user).lookup v = if v = user then none else l.lookup v := by
  induction l with
  | nil => exact (ite_self _).symm
  | cons entry l ih =>
      obtain ⟨name, pass⟩ := entry
      rw [List.filter_cons]
      by_cases hname : name = user
      · subst hname
        rw [if_neg (by simp), ih, List.lookup_cons]
        split
        · rfl
        · rename_i hv
          rw [beq_eq_false_iff_ne.mpr hv]
      · rw [if_pos (by simpa using hname), List.lookup_cons, List.lookup_cons]
        by_cases hv : v = name
        · subst hv
          rw [beq_self_eq_true, if_neg hname]
        · rw [beq_eq_false_iff_ne.mpr hv]
          exact ih

/-- Who is in the table was confirmed, and the timer of that confirmation is still pending. A reply
on its way is what the database makes of the select, and a confirmation is such a reply. -/
structure Backed (db : Database) (lag : Nat) (s : Logins) : Prop where
  pending : ∀ v pass, s.userpass.lookup v = some pass →
    ∃ c ∈ s.confirmed, c.user = v ∧ c.password = pass ∧ (c.time + 5000, v) ∈ s.timers
  punctual : ∀ timer ∈ s.timers, s.now ≤ timer.1 + lag
  replied : ∀ r ∈ s.logins, ∀ asked table res, r.stage = .replied asked table res →
    asked ≤ s.now ∧ ∃ ok, res = db.reply table r.user ok
  confirmed : ∀ c ∈ s.confirmed, c.asked ≤ c.time ∧ c.time ≤ s.now ∧
    ∃ ok, confirms (db.reply c.table c.user ok) c.password = true
  welcome : ∀ r ∈ s.logins, ∀ time, r.stage = .answered .welcome time →
    ∃ c ∈ s.confirmed, c.user = r.user ∧ c.password = r.password ∧ c.time ≤ time ∧
      time ≤ c.time + 5000 + lag

theorem Backed.arrive (h : Backed db lag s) (user password : List UInt8) :
    Backed db lag { s with logins := s.logins ++ [⟨user, password, s.arrived user password⟩] } := by
  refine ⟨h.pending, h.punctual, fun r hr asked table res hstage => ?_, h.confirmed,
    fun r hr time hstage => ?_⟩
  · rcases List.mem_append.mp hr with hr | hr
    · exact h.replied r hr asked table res hstage
    · obtain rfl := List.mem_singleton.mp hr
      dsimp only at hstage
      unfold arrived at hstage
      split at hstage
      · split at hstage <;> cases hstage
      · cases hstage
  · rcases List.mem_append.mp hr with hr | hr
    · exact h.welcome r hr time hstage
    · obtain rfl := List.mem_singleton.mp hr
      dsimp only at hstage ⊢
      unfold arrived at hstage
      split at hstage
      · split at hstage
        · cases hstage
        · rename_i pass hpass
          split at hstage
          · -- welcome at once, from the table of users
            rename_i heq
            cases hstage
            obtain ⟨c, hc, huser, rfl, htimer⟩ := h.pending user pass hpass
            exact ⟨c, hc, huser, beq_iff_eq.mp heq, (h.confirmed c hc).2.1,
              h.punctual _ htimer⟩
          · cases hstage
      · cases hstage

theorem mem_setStage {stage : LoginStage} {x : Login} (hx : x ∈ (s.setStage i r stage).logins) :
    x ∈ s.logins ∨ x = { r with stage } := List.mem_or_eq_of_mem_set hx

theorem Backed.select (h : Backed db lag s) (i : Nat) (r : Login) (ok : Bool) :
    Backed db lag (s.setStage i r (.replied s.now s.table (db.reply s.table r.user ok))) := by
  refine ⟨h.pending, h.punctual, fun x hx asked table res hstage => ?_, h.confirmed,
    fun x hx time hstage => ?_⟩
  · rcases mem_setStage hx with hx | rfl
    · exact h.replied x hx asked table res hstage
    · cases hstage
      exact ⟨le_rfl, ok, rfl⟩
  · rcases mem_setStage hx with hx | rfl
    · exact h.welcome x hx time hstage
    · cases hstage

/-- An answer of the database that is no confirmation. -/
theorem Backed.refuse (h : Backed db lag s) (i : Nat) (r : Login) :
    Backed db lag (s.setStage i r (.answered .logError s.now)) := by
  refine ⟨h.pending, h.punctual, fun x hx asked table res hstage => ?_, h.confirmed,
    fun x hx time hstage => ?_⟩
  · rcases mem_setStage hx with hx | rfl
    · exact h.replied x hx asked table res hstage
    · cases hstage
  · rcases mem_setStage hx with hx | rfl
    · exact h.welcome x hx time hstage
    · cases hstage

theorem Backed.confirm (h : Backed db lag s) (hr : s.logins[i]? = some r)
    (hstage : r.stage = .replied asked table res) (hconfirms : confirms res r.password = true) :
    Backed db lag ((s.confirm r asked table).setStage i r (.answered .welcome s.now)) := by
  have hmem : (⟨s.now, r.user, r.password, asked, table⟩ : Confirmation) ∈
      (s.confirm r asked table).confirmed := List.mem_cons_self
  refine ⟨fun v pass hlookup => ?_, fun timer htimer => ?_, fun x hx asked' table' res' hx' => ?_,
    fun c hc => ?_, fun x hx time hx' => ?_⟩
  · -- the new entry hides an older one of its user
    have hlookup : ((r.user, r.password) :: s.userpass).lookup v = some pass := hlookup
    rw [List.lookup_cons] at hlookup
    by_cases hv : v = r.user
    · subst hv
      rw [beq_self_eq_true] at hlookup
      cases hlookup
      exact ⟨_, hmem, rfl, rfl, List.mem_append_right _ (List.mem_singleton.mpr rfl)⟩
    · rw [beq_eq_false_iff_ne.mpr hv] at hlookup
      obtain ⟨c, hc, huser, hpass, htimer⟩ := h.pending v pass hlookup
      exact ⟨c, List.mem_cons_of_mem _ hc, huser, hpass, List.mem_append_left _ htimer⟩
  · rcases List.mem_append.mp htimer with htimer | htimer
    · exact h.punctual timer htimer
    · obtain rfl := List.mem_singleton.mp htimer
      show s.now ≤ s.now + 5000 + lag
      omega
  · rcases mem_setStage hx with hx | rfl
    · exact h.replied x hx asked' table' res' hx'
    · cases hx'
  · rcases List.mem_cons.mp hc with rfl | hc
    · obtain ⟨hasked, ok, rfl⟩ := h.replied r (List.mem_of_getElem? hr) asked table res hstage
      exact ⟨hasked, le_rfl, ok, hconfirms⟩
    · exact h.confirmed c hc
  · rcases mem_setStage hx with hx | rfl
    · obtain ⟨c, hc, hbounds⟩ := h.welcome x hx time hx'
      exact ⟨c, List.mem_cons_of_mem _ hc, hbounds⟩
    · cases hx'
      exact ⟨_, hmem, rfl, rfl, le_rfl, by dsimp only; omega⟩

theorem Backed.afterQuery (h : Backed db lag s) (hr : s.logins[i]? = some r)
    (hstage : r.stage = .replied asked table res) :
    Backed db lag (s.afterQuery i r asked table res) := by
  unfold Logins.afterQuery
  split
  · rename_i hconfirms
    exact h.confirm hr hstage hconfirms
  · exact h.refuse i r

theorem lookup_of_erase {v pass : List UInt8} (h : (s.erase k user).userpass.lookup v = some pass) :
    v ≠ user ∧ s.userpass.lookup v = some pass := by
  have h : (s.userpass.filter fun entry => entry.1 != user).lookup v = some pass := h
  rw [lookup_erase] at h
  split at h
  · cases h
  · rename_i hv
    exact ⟨hv, h⟩

/-- A timer of another user is not the one that fires. -/
theorem mem_timers_erase {deadline t : Nat} {v : List UInt8}
    (htimer : s.timers[k]? = some (deadline, user)) (hmem : (t, v) ∈ s.timers) (hv : v ≠ user) :
    (t, v) ∈ (s.erase k user).timers := by
  refine mem_eraseIdx_of_ne htimer hmem fun heq => hv ?_
  cases heq
  rfl

theorem Backed.fire (h : Backed db lag s) {deadline : Nat}
    (htimer : s.timers[k]? = some (deadline, user)) : Backed db lag (s.erase k user) := by
  refine ⟨fun v pass hlookup => ?_, fun timer hmem => ?_, h.replied, h.confirmed, h.welcome⟩
  · -- who is left in the table has another timer
    obtain ⟨hv, hlookup⟩ := lookup_of_erase hlookup
    obtain ⟨c, hc, huser, hpass, hmem⟩ := h.pending v pass hlookup
    exact ⟨c, hc, huser, hpass, mem_timers_erase htimer hmem hv⟩
  · exact h.punctual timer (List.mem_of_mem_eraseIdx hmem)

theorem Backed.tick (h : Backed db lag s) {d : Nat}
    (hpunctual : ∀ timer ∈ s.timers, s.now + d ≤ timer.1 + lag) :
    Backed db lag { s with now := s.now + d } := by
  have hlater : ∀ {t : Nat}, t ≤ s.now → t ≤ s.now + d := fun ht => ht.trans (Nat.le_add_right _ _)
  refine ⟨h.pending, hpunctual, fun r hr asked table res hstage => ?_, fun c hc => ?_, h.welcome⟩
  · obtain ⟨hasked, hres⟩ := h.replied r hr asked table res hstage
    exact ⟨hlater hasked, hres⟩
  · obtain ⟨hasked, htime, hok⟩ := h.confirmed c hc
    exact ⟨hasked, hlater htime, hok⟩

theorem backed_inductive (db : Database) (lag : Nat) :
    (loginSys db lag).Inductive (fun _ _ => True) (Backed db lag) where
  init := by
    rintro s ⟨huserpass, htimers, hlogins, hconfirmed⟩
    refine ⟨fun v pass hlookup => ?_, fun timer hmem => ?_, fun r hr => ?_, fun c hc => ?_,
      fun r hr => ?_⟩
    · rw [huserpass] at hlookup
      cases hlookup
    · rw [htimers] at hmem
      cases hmem
    · rw [hlogins] at hr
      cases hr
    · rw [hconfirmed] at hc
      cases hc
    · rw [hlogins] at hr
      cases hr
  step := by
    intro s a s' h _ hs
    have hs : loginStep db lag s a = some s' := hs
    cases a with
    | arrive user password =>
        cases hs
        exact h.arrive user password
    | select i ok =>
        obtain ⟨r, -, hselect⟩ := Option.bind_eq_some_iff.mp hs
        obtain ⟨-, rfl⟩ := when_eq_some.mp hselect
        exact h.select i r ok
    | reply i =>
        obtain ⟨r, hr, hreply⟩ := Option.bind_eq_some_iff.mp hs
        split at hreply
        · rename_i hstage
          cases hreply
          exact h.afterQuery hr hstage
        · cases hreply
    | change table =>
        cases hs
        exact ⟨h.pending, h.punctual, h.replied, h.confirmed, h.welcome⟩
    | fire k =>
        obtain ⟨⟨deadline, user⟩, htimer, hfire⟩ := Option.bind_eq_some_iff.mp hs
        obtain ⟨-, rfl⟩ := when_eq_some.mp hfire
        exact h.fire htimer
    | tick d =>
        obtain ⟨hpunctual, rfl⟩ := when_eq_some.mp hs
        exact h.tick hpunctual

end

/-- One user is registered. -/
def atStart : Logins := ⟨0, [⟨bytes "gxh", bytes "1234"⟩], [], [], [], []⟩

/-- One look at the database, then one into the table of users, with the row gone. -/
def twoWelcomes : List LoginAct :=
  [.arrive (bytes "gxh") (bytes "1234"), .select 0 true, .tick 500, .change [], .reply 0,
    .tick 4000, .arrive (bytes "gxh") (bytes "1234")]

/-- The request has no answer yet. -/
def LoginStage.waits : LoginStage → Bool
  | .answered .. => false
  | _ => true

def asks (user : List UInt8) (r : Login) : Bool := r.stage.waits && r.user == user

/-- No request goes to the database for a user of whom another one waits for it. -/
def OneAtATime (s : Logins) : LoginAct → Prop
  | .arrive user password => s.arrived user password = .querying →
      ∀ r ∈ s.logins, asks user r = false
  | _ => True

instance (s : Logins) : DecidablePred (OneAtATime s)
  | .arrive _ _ => inferInstanceAs (Decidable (_ → _))
  | .select _ _ | .reply _ | .change _ | .fire _ | .tick _ => .isTrue trivial

/-- Of each user there is at most one timer, or else one request that waits for the database. -/
structure Lasting (s : Logins) : Prop where
  single : ∀ v, s.timers.countP (·.2 == v) + s.logins.countP (asks v) ≤ 1
  known : ∀ timer ∈ s.timers, s.userpass.lookup timer.2 ≠ none
  lasting : ∀ c ∈ s.confirmed, s.now < c.time + 5000 →
    (c.time + 5000, c.user) ∈ s.timers ∧ s.userpass.lookup c.user = some c.password

section

variable {db : Database} {lag : Nat} {s s' : Logins} {r : Login} {i k asked : Nat}
  {table : List Row} {res : Reply} {user password : List UInt8}

/-- A request waits for the database when its user is not in the table. -/
theorem arrived_waits (h : (s.arrived user password).waits = true) :
    s.arrived user password = .querying ∧ s.userpass.lookup user = none := by
  unfold arrived at h ⊢
  split at h
  · rename_i hsize
    rw [if_pos hsize]
    split at h
    · rename_i hnone
      exact ⟨rfl, hnone⟩
    · cases h
  · cases h

theorem countP_timers_of_lookup (h : Lasting s) (hnone : s.userpass.lookup user = none) :
    s.timers.countP (·.2 == user) = 0 := by
  rw [List.countP_eq_zero]
  intro timer hmem heq
  refine h.known timer hmem ?_
  rw [beq_iff_eq.mp heq]
  exact hnone

theorem Lasting.arrive (h : Lasting s) (hone : OneAtATime s (.arrive user password)) :
    Lasting { s with logins := s.logins ++ [⟨user, password, s.arrived user password⟩] } := by
  refine ⟨fun v => ?_, h.known, h.lasting⟩
  have hsingle := h.single v
  dsimp only
  rw [List.countP_append, List.countP_singleton]
  split
  · rename_i hasks
    obtain ⟨hstage, huser⟩ := Bool.and_eq_true_iff.mp hasks
    obtain rfl : user = v := beq_iff_eq.mp huser
    -- a user who is not in the table has no timer
    obtain ⟨hquerying, hnone⟩ := arrived_waits hstage
    have htimers := countP_timers_of_lookup h hnone
    have hasking : s.logins.countP (asks user) = 0 :=
      List.countP_eq_zero.mpr fun r hr => by
        rw [hone hquerying r hr]
        exact Bool.false_ne_true
    omega
  · exact hsingle

/-- The answer to a request takes it off those that wait for the database. -/
theorem countP_setStage (page : Page) (time : Nat) (hr : s.logins[i]? = some r)
    (hstage : r.stage.waits = true) (v : List UInt8) :
    (s.setStage i r (.answered page time)).logins.countP (asks v) +
      (if r.user = v then 1 else 0) = s.logins.countP (asks v) := by
  have hset := countP_set_add (p := asks v) { r with stage := .answered page time } hr
  rw [show asks v { r with stage := .answered page time } = false from rfl,
    show asks v r = (r.user == v) by rw [asks, hstage]; rfl] at hset
  simpa [setStage] using hset

theorem Lasting.select (h : Lasting s) (hr : s.logins[i]? = some r)
    (hstage : r.stage = .querying) : Lasting (s.setStage i r (.replied asked table res)) := by
  refine ⟨fun v => ?_, h.known, h.lasting⟩
  have hset := countP_set_add (p := asks v) { r with stage := .replied asked table res } hr
  rw [show asks v { r with stage := .replied asked table res } = asks v r by
    rw [asks, asks, hstage]; rfl] at hset
  have hsingle := h.single v
  show s.timers.countP (·.2 == v) + (s.logins.set i _).countP (asks v) ≤ 1
  omega

theorem Lasting.refuse (h : Lasting s) (hr : s.logins[i]? = some r)
    (hstage : r.stage.waits = true) :
    Lasting (s.setStage i r (.answered .logError s.now)) := by
  refine ⟨fun v => ?_, h.known, h.lasting⟩
  have hcount := countP_setStage .logError s.now hr hstage v
  have hsingle := h.single v
  show s.timers.countP (·.2 == v) + _ ≤ 1
  omega

/-- While a request of a user waits for the database, the user has no timer. -/
theorem countP_timers_of_waits (h : Lasting s) (hr : s.logins[i]? = some r)
    (hstage : r.stage.waits = true) : s.timers.countP (·.2 == r.user) = 0 := by
  have hcount := countP_setStage .logError s.now hr hstage r.user
  have hsingle := h.single r.user
  rw [if_pos rfl] at hcount
  omega

theorem Lasting.confirm (h : Lasting s) (hr : s.logins[i]? = some r)
    (hstage : r.stage.waits = true) :
    Lasting ((s.confirm r asked table).setStage i r (.answered .welcome s.now)) := by
  have hnone := countP_timers_of_waits h hr hstage
  refine ⟨fun v => ?_, fun timer hmem => ?_, fun c hc hnow => ?_⟩
  · have hcount := countP_setStage .welcome s.now hr hstage v
    have hsingle := h.single v
    show (s.timers ++ [(s.now + 5000, r.user)]).countP (·.2 == v) +
      (s.setStage i r (.answered .welcome s.now)).logins.countP (asks v) ≤ 1
    rw [List.countP_append, List.countP_singleton]
    by_cases hv : r.user = v
    · -- the timer takes the place of the request
      subst hv
      rw [if_pos rfl] at hcount
      rw [if_pos (beq_self_eq_true _)]
      omega
    · rw [if_neg hv] at hcount
      rw [if_neg (by simpa using hv)]
      omega
  · show ((r.user, r.password) :: s.userpass).lookup timer.2 ≠ none
    rw [List.lookup_cons]
    split
    · exact Option.some_ne_none _
    · rename_i hv
      rcases List.mem_append.mp hmem with hmem | hmem
      · exact h.known timer hmem
      · obtain rfl := List.mem_singleton.mp hmem
        exact absurd rfl (beq_eq_false_iff_ne.mp hv)
  · show (c.time + 5000, c.user) ∈ s.timers ++ [(s.now + 5000, r.user)] ∧
      ((r.user, r.password) :: s.userpass).lookup c.user = some c.password
    rcases List.mem_cons.mp hc with rfl | hc
    · exact ⟨List.mem_append_right _ List.mem_cons_self, List.lookup_cons_self⟩
    · obtain ⟨htimer, hlookup⟩ := h.lasting c hc hnow
      refine ⟨List.mem_append_left _ htimer, ?_⟩
      have hv : c.user ≠ r.user := by
        intro heq
        exact List.countP_eq_zero.mp hnone _ htimer (by rw [heq]; exact beq_self_eq_true _)
      rw [List.lookup_cons, beq_eq_false_iff_ne.mpr hv]
      exact hlookup

theorem Lasting.afterQuery (h : Lasting s) (hr : s.logins[i]? = some r)
    (hstage : r.stage = .replied asked table res) :
    Lasting (s.afterQuery i r asked table res) := by
  have hwaits : r.stage.waits = true := by rw [hstage]; rfl
  unfold Logins.afterQuery
  split
  · exact h.confirm hr hwaits
  · exact h.refuse hr hwaits

theorem Lasting.fire (h : Lasting s) {deadline : Nat}
    (htimer : s.timers[k]? = some (deadline, user)) (hdue : deadline ≤ s.now) :
    Lasting (s.erase k user) := by
  have hcount (v : List UInt8) := countP_eraseIdx htimer (·.2 == v)
  have hnone : (s.timers.eraseIdx k).countP (·.2 == user) = 0 := by
    have hsingle := h.single user
    have hcount := hcount user
    rw [if_pos (beq_self_eq_true _)] at hcount
    omega
  refine ⟨fun v => ?_, fun timer hmem => ?_, fun c hc hnow => ?_⟩
  · have hsingle := h.single v
    have hcount := hcount v
    show (s.timers.eraseIdx k).countP (·.2 == v) + s.logins.countP (asks v) ≤ 1
    omega
  · have hv : timer.2 ≠ user := fun heq =>
      List.countP_eq_zero.mp hnone timer hmem (beq_iff_eq.mpr heq)
    show (s.userpass.filter fun entry => entry.1 != user).lookup timer.2 ≠ none
    rw [lookup_erase, if_neg hv]
    exact h.known timer (List.mem_of_mem_eraseIdx hmem)
  · obtain ⟨hmem, hlookup⟩ := h.lasting c hc hnow
    have hnow : s.now < c.time + 5000 := hnow
    -- the timer that fires is due, and the one of `c` is not
    have hmem : (c.time + 5000, c.user) ∈ s.timers.eraseIdx k := by
      refine mem_eraseIdx_of_ne htimer hmem fun heq => ?_
      have hdeadline : c.time + 5000 = deadline := congrArg Prod.fst heq
      omega
    have hv : c.user ≠ user := fun heq => List.countP_eq_zero.mp hnone _ hmem (beq_iff_eq.mpr heq)
    refine ⟨hmem, ?_⟩
    show (s.userpass.filter fun entry => entry.1 != user).lookup c.user = some c.password
    rw [lookup_erase, if_neg hv]
    exact hlookup

theorem lasting_inductive (db : Database) (lag : Nat) :
    (loginSys db lag).Inductive OneAtATime Lasting where
  init := by
    rintro s ⟨huserpass, htimers, hlogins, hconfirmed⟩
    refine ⟨fun v => ?_, fun timer hmem => ?_, fun c hc _ => ?_⟩
    · rw [htimers, hlogins]
      exact Nat.zero_le _
    · rw [htimers] at hmem
      cases hmem
    · rw [hconfirmed] at hc
      cases hc
  step := by
    intro s a s' h hone hs
    have hs : loginStep db lag s a = some s' := hs
    cases a with
    | arrive user password =>
        cases hs
        exact h.arrive hone
    | select i ok =>
        obtain ⟨r, hr, hselect⟩ := Option.bind_eq_some_iff.mp hs
        obtain ⟨hstage, rfl⟩ := when_eq_some.mp hselect
        exact h.select hr hstage
    | reply i =>
        obtain ⟨r, hr, hreply⟩ := Option.bind_eq_some_iff.mp hs
        split at hreply
        · rename_i hstage
          cases hreply
          exact h.afterQuery hr hstage
        · cases hreply
    | change table =>
        cases hs
        exact ⟨h.single, h.known, h.lasting⟩
    | fire k =>
        obtain ⟨⟨deadline, user⟩, htimer, hfire⟩ := Option.bind_eq_some_iff.mp hs
        obtain ⟨hdue, rfl⟩ := when_eq_some.mp hfire
        exact h.fire htimer hdue
    | tick d =>
        obtain ⟨-, rfl⟩ := when_eq_some.mp hs
        refine ⟨h.single, h.known, fun c hc hnow => h.lasting c hc ?_⟩
        exact (Nat.le_add_right _ _).trans_lt hnow

end

/-- While the first request waits, one without a password is sent away. -/
def waitedFor : List LoginAct :=
  [.arrive (bytes "gxh") (bytes "1234"), .arrive (bytes "gxh") [], .select 0 true, .reply 0,
    .tick 4000, .arrive (bytes "gxh") (bytes "1234"), .tick 999]

/-- Both requests wait; the second confirmation comes three seconds after the first, and the timer
of the first ends the session two seconds later. -/
example : ((loginSys (Database.reading binary) 10).exec (fun _ _ => true) atStart
    [.arrive (bytes "gxh") (bytes "1234"), .arrive (bytes "gxh") (bytes "1234"), .select 0 true,
      .select 1 true, .reply 0, .tick 3000, .reply 1, .tick 2000, .fire 0]).map
      (fun s => (s.confirmed.map Confirmation.time, s.userpass.lookup (bytes "gxh"))) =
    some ([3000, 0], none) := by decide +kernel

end Gxh.TinyWebserver
