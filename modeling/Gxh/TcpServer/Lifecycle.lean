import Gxh.Lib.Positions
import Gxh.Lib.TSys
import Mathlib.Data.List.Count
import Mathlib.Data.List.Nodup
import Mathlib.Data.Nat.Basic

/-!
# The life of a server

`TcpServer::bind`, `start`, `stop` and `startAccept` (`tcp_server.cc`), with the tasks of the accept
worker and the fibers that run the accept loops, on any number of threads. Listening sockets are
numbered in the order in which they are made; that the number of a closed description may be in use
again is left out (`Hook.DoIo`). A socket is closed by the task that `stop` schedules, or by its
destructor, when neither the server nor a task or a loop has a pointer to it.

A loop waits in the hooked `accept`: a call that gives `EAGAIN`, `addEvent`, and then the call again
when the event is triggered, by `epoll_wait` or by `cancelAll`. The task of `stop` goes through the
sockets: `sock->cancelAll()`, and in `close` another `cancelAll` before `close_f`.

`sockets_owned`: the server has all its listening sockets in `m_socks` exactly as long as no `bind`
fails while one of them is being accepted on. Such a `bind` drops them all, and the accept loops go
on with theirs.
-/

namespace Gxh.TcpServer

/-- What the accept worker has to run. -/
inductive Task
  | startAccept (sock : Nat)
  /-- the function that `stop` schedules -/
  | close
  deriving DecidableEq, Repr

/-- Where a fiber is in `startAccept`. -/
inductive Place
  /-- at the test of `m_isStop` -/
  | test
  /-- in `accept`, at the system call -/
  | attempt
  /-- in `accept` with `EAGAIN`, at `addEvent` -/
  | adding
  /-- the event is registered, and the fiber has yielded -/
  | parked
  deriving DecidableEq, Repr

structure Loop where
  id : Nat
  sock : Nat
  place : Place
  deriving DecidableEq, Repr

/-- What the system call of `accept` gives. -/
inductive Accepted
  | client
  | error
  | EAGAIN
  deriving DecidableEq, Repr

/-- Where the function of `stop` is with the first of the sockets that it has still to do. -/
inductive CloseStage
  | cancelAll
  /-- in `close`, at the `cancelAll` there -/
  | hookedClose
  | close_f
  deriving DecidableEq, Repr

/-- `TcpServer`, with the accept worker and the listening sockets. -/
structure Server where
  socks : List Nat
  isStop : Bool
  tasks : List Task
  loops : List Loop
  /-- the function of `stop`, while it runs -/
  closing : Option (CloseStage × List Nat)
  made : Nat
  /-- how many accept loops there have been -/
  started : Nat
  isOpen : Nat → Bool
  /-- the loops that have scheduled `handleClient`, once for each client -/
  clients : List Nat
  /-- an assertion has failed, or `m_socks` has changed under the function of `stop` -/
  aborted : Bool

inductive Act
  /-- `bind` with an empty `fails`: for each address, whether the socket is bound and listens -/
  | bind (results : List Bool)
  | start
  | stop
  /-- a thread of the accept worker takes a task -/
  | run (k : Nat)
  /-- the function of `stop` goes on -/
  | close
  /-- an accept loop makes its test -/
  | test (k : Nat)
  | attempt (k : Nat) (r : Accepted)
  /-- `ok` is false when `epoll_ctl` fails -/
  | add (k : Nat) (ok : Bool)
  /-- `epoll_wait` reports the socket of a loop -/
  | wake (k : Nat)
  deriving DecidableEq, Repr

def Loop.waits (i : Nat) (l : Loop) : Bool := l.sock == i && l.place == .parked

namespace Server

/-- A task or an accept loop has a pointer to the socket. -/
def serves (s : Server) (i : Nat) : Bool :=
  decide (.startAccept i ∈ s.tasks) || s.loops.any fun l => l.sock == i

def holds (s : Server) (i : Nat) : Bool := decide (i ∈ s.socks) || s.serves i

/-- `Socket::~Socket` of the sockets that nothing points to. -/
def reap (s : Server) : Server := { s with isOpen := fun i => s.isOpen i && s.holds i }

/-- The loop of `bind`: only what is bound and listens stays. -/
def bindAll : List Bool → Server → Server
  | [], s => s
  | true :: rest, s =>
      bindAll rest { s with
        socks := s.socks ++ [s.made]
        made := s.made + 1
        isOpen := fun i => s.isOpen i || i == s.made }
  | false :: rest, s => bindAll rest s

def bind (results : List Bool) (s : Server) : Server :=
  let t := bindAll results s
  let t := if results.all (· == true) then t else { t with socks := [] }.reap
  { t with aborted := !results.isEmpty && s.closing.isSome }

def start (s : Server) : Server :=
  if !s.isStop then s
  else { s with isStop := false, tasks := s.tasks ++ s.socks.map .startAccept }

def stop (s : Server) : Server := { s with isStop := true, tasks := s.tasks ++ [.close] }

/-- `IOManager::cancelAll`: the fiber that waits for the event is scheduled. -/
def cancelAll (s : Server) (i : Nat) : Server :=
  { s with loops := s.loops.map fun l => if l.waits i then { l with place := .attempt } else l }

def runTask (s : Server) : Task → Server
  | .startAccept i =>
      { s with loops := s.loops ++ [⟨s.started, i, .test⟩], started := s.started + 1 }
  | .close =>
      match s.closing with
      | none => { s with closing := some (.cancelAll, s.socks) }
      | some _ => { s with aborted := true }

/-- The next call of the function of `stop`. -/
def closeNext (s : Server) : Option Server :=
  match s.closing with
  | none => none
  | some (_, []) => some { s with socks := [], closing := none }
  | some (.cancelAll, i :: rest) =>
      some { s.cancelAll i with closing := some (.hookedClose, i :: rest) }
  | some (.hookedClose, i :: rest) =>
      some { s.cancelAll i with closing := some (.close_f, i :: rest) }
  | some (.close_f, i :: rest) =>
      some { s with
        isOpen := fun j => s.isOpen j && j != i
        closing := some (.cancelAll, rest) }

/-- Loop `k` goes to another place. -/
def moveTo (s : Server) (k : Nat) (l : Loop) (place : Place) : Server :=
  { s with loops := s.loops.set k { l with place } }

/-- The system call; on a closed socket there is only an error. -/
def answer (s : Server) (k : Nat) (l : Loop) : Accepted → Option Server
  | .client =>
      when (s.isOpen l.sock = true) { s.moveTo k l .test with clients := l.id :: s.clients }
  | .error => some (s.moveTo k l .test)
  | .EAGAIN => when (s.isOpen l.sock = true) (s.moveTo k l .adding)

/-- `addEvent`: an assertion sees to it that no other fiber waits for the event. -/
def addEvent (s : Server) (k : Nat) (l : Loop) (ok : Bool) : Server :=
  if s.loops.any (Loop.waits l.sock) then { s with aborted := true }
  else s.moveTo k l (if ok && s.isOpen l.sock then .parked else .test)

def act (s : Server) : Act → Option Server
  | .bind results => some (s.bind results)
  | .start => some s.start
  | .stop => some s.stop
  | .run k =>
      s.tasks[k]?.map fun task => { s with tasks := s.tasks.eraseIdx k }.runTask task
  | .close => s.closeNext
  | .test k =>
      s.loops[k]?.bind fun l => when (l.place = .test)
        (if s.isStop then { s with loops := s.loops.eraseIdx k }.reap else s.moveTo k l .attempt)
  | .attempt k r => s.loops[k]?.bind fun l => if l.place = .attempt then s.answer k l r else none
  | .add k ok => s.loops[k]?.bind fun l => when (l.place = .adding) (s.addEvent k l ok)
  | .wake k =>
      s.loops[k]?.bind fun l =>
        when (l.place = .parked ∧ s.isOpen l.sock = true) (s.moveTo k l .attempt)

def step (s : Server) (a : Act) : Option Server := if s.aborted then none else s.act a

end Server

/-- `TcpServer::TcpServer`. -/
def Server.new : Server := ⟨[], true, [], [], none, 0, 0, fun _ => false, [], false⟩

def serverSys : TSys Server Act where
  init := fun s => s = .new
  step := Server.step

/-! ## What a step can do -/

/-- A step of the accept worker. -/
def Act.Works : Act → Prop
  | .bind _ | .start | .stop => False
  | _ => True

namespace Server

/-- How loop `k` may go to another place, and who has accepted clients then. -/
inductive Moves (s : Server) (k : Nat) (l : Loop) : Act → Place → List Nat → Prop
  | enter : l.place = .test → s.isStop = false → Moves s k l (.test k) .attempt s.clients
  | client : l.place = .attempt → s.isOpen l.sock = true →
      Moves s k l (.attempt k .client) .test (l.id :: s.clients)
  | error : l.place = .attempt → Moves s k l (.attempt k .error) .test s.clients
  | EAGAIN : l.place = .attempt → s.isOpen l.sock = true →
      Moves s k l (.attempt k .EAGAIN) .adding s.clients
  | parks (ok : Bool) : l.place = .adding → s.isOpen l.sock = true →
      Moves s k l (.add k ok) .parked s.clients
  | refused (ok : Bool) : l.place = .adding → Moves s k l (.add k ok) .test s.clients
  | wakes : l.place = .parked → s.isOpen l.sock = true → Moves s k l (.wake k) .attempt s.clients

/-- The steps of the accept worker. -/
inductive Worked (s : Server) : Act → Server → Prop
  | startAccept (k i : Nat) : s.tasks[k]? = some (.startAccept i) →
      Worked s (.run k) { s with
        tasks := s.tasks.eraseIdx k
        loops := s.loops ++ [⟨s.started, i, .test⟩]
        started := s.started + 1 }
  | close (k : Nat) : s.tasks[k]? = some .close → s.closing = none →
      Worked s (.run k) { s with
        tasks := s.tasks.eraseIdx k
        closing := some (.cancelAll, s.socks) }
  | collides (k : Nat) : s.tasks[k]? = some .close → s.closing ≠ none →
      Worked s (.run k) { s with tasks := s.tasks.eraseIdx k, aborted := true }
  | cancels (i : Nat) (rest : List Nat) (stage stage' : CloseStage) :
      s.closing = some (stage, i :: rest) →
      (stage = .cancelAll ∧ stage' = .hookedClose ∨ stage = .hookedClose ∧ stage' = .close_f) →
      Worked s .close { s.cancelAll i with closing := some (stage', i :: rest) }
  | closes (i : Nat) (rest : List Nat) : s.closing = some (.close_f, i :: rest) →
      Worked s .close { s with
        isOpen := fun j => s.isOpen j && j != i
        closing := some (.cancelAll, rest) }
  | clears (stage : CloseStage) : s.closing = some (stage, []) →
      Worked s .close { s with socks := [], closing := none }
  | ends (k : Nat) (l : Loop) : s.loops[k]? = some l → l.place = .test → s.isStop = true →
      Worked s (.test k) { s with loops := s.loops.eraseIdx k }.reap
  | second (k : Nat) (l : Loop) (ok : Bool) : s.loops[k]? = some l → l.place = .adding →
      s.loops.any (Loop.waits l.sock) = true → Worked s (.add k ok) { s with aborted := true }
  | moves (k : Nat) (l : Loop) (a : Act) (place : Place) (clients : List Nat) :
      s.loops[k]? = some l → Moves s k l a place clients →
      Worked s a { s.moveTo k l place with clients }

variable {s s' : Server} {a : Act} {k : Nat} {l : Loop}

theorem closeNext_worked (hs : s.closeNext = some s') : Worked s .close s' := by
  unfold closeNext at hs
  split at hs
  · cases hs
  · rename_i stage hclosing
    cases hs
    exact .clears stage hclosing
  · rename_i i rest hclosing
    cases hs
    exact .cancels i rest _ _ hclosing (.inl ⟨rfl, rfl⟩)
  · rename_i i rest hclosing
    cases hs
    exact .cancels i rest _ _ hclosing (.inr ⟨rfl, rfl⟩)
  · rename_i i rest hclosing
    cases hs
    exact .closes i rest hclosing

theorem answer_worked (hloop : s.loops[k]? = some l) (hplace : l.place = .attempt) {r : Accepted}
    (hs : s.answer k l r = some s') : Worked s (.attempt k r) s' := by
  cases r with
  | client =>
      obtain ⟨hopen, rfl⟩ := when_eq_some.mp hs
      exact .moves k l _ .test _ hloop (.client hplace hopen)
  | error =>
      cases hs
      exact .moves k l _ .test _ hloop (.error hplace)
  | EAGAIN =>
      obtain ⟨hopen, rfl⟩ := when_eq_some.mp hs
      exact .moves k l _ .adding _ hloop (.EAGAIN hplace hopen)

theorem addEvent_worked (hloop : s.loops[k]? = some l) (hplace : l.place = .adding) (ok : Bool) :
    Worked s (.add k ok) (s.addEvent k l ok) := by
  unfold addEvent
  split
  · rename_i hwaits
    exact .second k l ok hloop hplace hwaits
  · split
    · rename_i hok
      exact .moves k l _ .parked _ hloop (.parks ok hplace (Bool.and_eq_true_iff.mp hok).2)
    · exact .moves k l _ .test _ hloop (.refused ok hplace)

theorem step_eq (hs : s.step a = some s') : s.aborted = false ∧ s.act a = some s' := by
  unfold step at hs
  split at hs
  · cases hs
  · rename_i hlive
    exact ⟨by simpa using hlive, hs⟩

theorem worked (ha : a.Works) (hs : s.step a = some s') : Worked s a s' := by
  obtain ⟨-, hs⟩ := step_eq hs
  cases a with
  | bind results => exact ha.elim
  | start => exact ha.elim
  | stop => exact ha.elim
  | run k =>
      obtain ⟨task, htask, rfl⟩ := Option.map_eq_some_iff.mp hs
      cases task with
      | startAccept i => exact .startAccept k i htask
      | close =>
          cases hclosing : s.closing with
          | none =>
              have hworked := Worked.close k htask hclosing
              simp only [runTask]
              exact hworked
          | some closing =>
              have hsome : s.closing ≠ none := by
                rw [hclosing]
                exact Option.some_ne_none _
              have hworked := Worked.collides k htask hsome
              simp only [runTask]
              rw [hclosing] at hworked
              exact hworked
  | close => exact closeNext_worked hs
  | test k =>
      obtain ⟨l, hloop, htest⟩ := Option.bind_eq_some_iff.mp hs
      obtain ⟨hplace, rfl⟩ := when_eq_some.mp htest
      split
      · rename_i hstop
        exact .ends k l hloop hplace hstop
      · rename_i hstop
        exact .moves k l _ .attempt _ hloop (.enter hplace (by simpa using hstop))
  | attempt k r =>
      obtain ⟨l, hloop, hanswer⟩ := Option.bind_eq_some_iff.mp hs
      split at hanswer
      · rename_i hplace
        exact answer_worked hloop hplace hanswer
      · cases hanswer
  | add k ok =>
      obtain ⟨l, hloop, hadd⟩ := Option.bind_eq_some_iff.mp hs
      obtain ⟨hplace, rfl⟩ := when_eq_some.mp hadd
      exact addEvent_worked hloop hplace ok
  | wake k =>
      obtain ⟨l, hloop, hwake⟩ := Option.bind_eq_some_iff.mp hs
      obtain ⟨⟨hplace, hopen⟩, rfl⟩ := when_eq_some.mp hwake
      exact .moves k l _ .attempt _ hloop (.wakes hplace hopen)

/-! ## Who has the sockets -/

theorem serves_iff {i : Nat} :
    s.serves i = true ↔ .startAccept i ∈ s.tasks ∨ i ∈ s.loops.map Loop.sock := by
  simp [serves]

theorem holds_iff {i : Nat} : s.holds i = true ↔ i ∈ s.socks ∨ s.serves i = true := by
  simp [holds]

theorem isOpen_reap {i : Nat} :
    s.reap.isOpen i = true ↔ s.isOpen i = true ∧ s.holds i = true := Bool.and_eq_true_iff

/-- A loop keeps its number and its socket when it moves. -/
theorem map_moveTo {β : Type} (f : Loop → β) (hf : ∀ l place, f { l with place } = f l)
    (hloop : s.loops[k]? = some l) (place : Place) :
    (s.moveTo k l place).loops.map f = s.loops.map f := by
  show (s.loops.set k _).map f = _
  refine List.ext_getElem? fun j => ?_
  rw [List.getElem?_map, List.getElem?_map]
  by_cases hj : k = j
  · subst hj
    rw [List.getElem?_set_self (List.getElem?_eq_some_iff.mp hloop).1, hloop]
    exact congrArg some (hf l place)
  · rw [List.getElem?_set_ne hj]

theorem map_cancelAll {β : Type} (f : Loop → β) (hf : ∀ l place, f { l with place } = f l)
    (s : Server) (i : Nat) : (s.cancelAll i).loops.map f = s.loops.map f := by
  show (s.loops.map _).map f = _
  rw [List.map_map]
  refine List.map_congr_left fun l _ => ?_
  show f (if l.waits i then { l with place := .attempt } else l) = f l
  split
  · exact hf l _
  · rfl

/-- A task that starts to accept becomes a loop. -/
theorem serves_startAccept {i j : Nat} (htask : s.tasks[k]? = some (.startAccept i)) :
    ({ s with
      tasks := s.tasks.eraseIdx k
      loops := s.loops ++ [⟨s.started, i, .test⟩]
      started := s.started + 1 } : Server).serves j = s.serves j := by
  rw [Bool.eq_iff_iff, serves_iff, serves_iff, List.map_append, List.mem_append]
  constructor
  · rintro (hmem | hmem | hmem)
    · exact .inl (List.mem_of_mem_eraseIdx hmem)
    · exact .inr hmem
    · obtain rfl := List.mem_singleton.mp hmem
      exact .inl (List.mem_of_getElem? htask)
  · rintro (hmem | hmem)
    · by_cases hi : j = i
      · exact .inr (.inr (List.mem_singleton.mpr hi))
      · refine .inl (mem_eraseIdx_of_ne htask hmem fun heq => hi ?_)
        cases heq
        rfl
    · exact .inr (.inl hmem)

/-- The task of `stop` has no pointer to a socket. -/
theorem mem_tasks_close {i : Nat} (htask : s.tasks[k]? = some .close) :
    .startAccept i ∈ s.tasks.eraseIdx k ↔ .startAccept i ∈ s.tasks := by
  refine ⟨List.mem_of_mem_eraseIdx, fun hmem => ?_⟩
  refine mem_eraseIdx_of_ne htask hmem fun heq => ?_
  cases heq

theorem serves_of_ended {j : Nat}
    (h : ({ s with loops := s.loops.eraseIdx k } : Server).serves j = true) :
    s.serves j = true := by
  rw [serves_iff] at h ⊢
  refine h.imp_right fun hmem => ?_
  obtain ⟨l, hl, rfl⟩ := List.mem_map.mp hmem
  exact List.mem_map_of_mem (List.mem_of_mem_eraseIdx hl)

/-- What a step of the accept worker does to the pointers: `m_socks` is as it was or cleared, no
socket is opened or newly served, and what was served and is still open has an owner. -/
structure Less (s s' : Server) : Prop where
  socks : s'.socks = s.socks ∨ s'.socks = [] ∧ ∃ stage, s.closing = some (stage, [])
  made : s'.made = s.made
  opened : ∀ i, s'.isOpen i = true → s.isOpen i = true
  serves : ∀ i, s'.serves i = true → s.serves i = true
  held : ∀ i, s'.isOpen i = true → s.serves i = true → s'.holds i = true

theorem less_of_serves (hsocks : s'.socks = s.socks ∨ s'.socks = [] ∧
      ∃ stage, s.closing = some (stage, [])) (hmade : s'.made = s.made)
    (hopen : ∀ i, s'.isOpen i = true → s.isOpen i = true)
    (hserves : ∀ i, s'.serves i = s.serves i) : Less s s' where
  socks := hsocks
  made := hmade
  opened := hopen
  serves := by
    intro i hi
    rwa [hserves] at hi
  held := by
    intro i _ hi
    rw [holds_iff, hserves]
    exact .inr hi

theorem serves_congr (htasks : ∀ i, .startAccept i ∈ s'.tasks ↔ .startAccept i ∈ s.tasks)
    (hloops : s'.loops.map Loop.sock = s.loops.map Loop.sock) (i : Nat) :
    s'.serves i = s.serves i := by
  rw [Bool.eq_iff_iff, serves_iff, serves_iff, htasks, hloops]

theorem Worked.less (hw : Worked s a s') : Less s s' := by
  cases hw with
  | startAccept k i htask =>
      exact less_of_serves (.inl rfl) rfl (fun j hj => hj) fun j => serves_startAccept htask
  | close k htask hclosing =>
      exact less_of_serves (.inl rfl) rfl (fun j hj => hj)
        (serves_congr (fun j => mem_tasks_close htask) rfl)
  | collides k htask hclosing =>
      exact less_of_serves (.inl rfl) rfl (fun j hj => hj)
        (serves_congr (fun j => mem_tasks_close htask) rfl)
  | cancels i rest stage stage' hclosing hstage =>
      exact less_of_serves (.inl rfl) rfl (fun j hj => hj)
        (serves_congr (fun j => Iff.rfl) (map_cancelAll _ (fun _ _ => rfl) s i))
  | closes i rest hclosing =>
      exact less_of_serves (.inl rfl) rfl (fun j hj => (Bool.and_eq_true_iff.mp hj).1)
        fun j => rfl
  | clears stage hclosing =>
      exact less_of_serves (.inr ⟨rfl, stage, hclosing⟩) rfl (fun j hj => hj) fun j => rfl
  | ends k l hloop hplace hstop =>
      exact ⟨.inl rfl, rfl, fun j hj => (isOpen_reap.mp hj).1, fun j hj => serves_of_ended hj,
        fun j hj _ => (isOpen_reap.mp hj).2⟩
  | second k l ok hloop hplace hwaits =>
      exact less_of_serves (.inl rfl) rfl (fun j hj => hj) fun j => rfl
  | moves k l a place clients hloop hmove =>
      exact less_of_serves (.inl rfl) rfl (fun j hj => hj)
        (serves_congr (fun j => Iff.rfl) (map_moveTo _ (fun _ _ => rfl) hloop place))

/-- Sockets have numbers below `made`, and an open one has an owner. -/
structure Inv (s : Server) : Prop where
  once : s.socks.Nodup
  below : ∀ i ∈ s.socks, i < s.made
  known : ∀ i, s.isOpen i = true → i < s.made
  served : ∀ i, s.serves i = true → i < s.made
  owned : ∀ i, s.isOpen i = true → s.holds i = true

/-- The function of `stop` has still to do the sockets of the server that are open. -/
def Covered (s : Server) : Prop :=
  ∀ stage rest, s.closing = some (stage, rest) → ∀ i ∈ s.socks, s.isOpen i = true → i ∈ rest

theorem Inv.of_less (h : Inv s) (hcovered : Covered s) (hless : Less s s') : Inv s' where
  once := by
    rcases hless.socks with hsocks | ⟨hsocks, -⟩
    · rw [hsocks]
      exact h.once
    · rw [hsocks]
      exact List.nodup_nil
  below := by
    intro i hi
    rw [hless.made]
    rcases hless.socks with hsocks | ⟨hsocks, -⟩
    · rw [hsocks] at hi
      exact h.below i hi
    · rw [hsocks] at hi
      cases hi
  known := by
    intro i hi
    rw [hless.made]
    exact h.known i (hless.opened i hi)
  served := by
    intro i hi
    rw [hless.made]
    exact h.served i (hless.serves i hi)
  owned := by
    intro i hi
    rcases holds_iff.mp (h.owned i (hless.opened i hi)) with hmem | hserves
    · rcases hless.socks with hsocks | ⟨-, stage, hclosing⟩
      · rw [holds_iff, hsocks]
        exact .inl hmem
      · -- when `m_socks` is cleared, none of its sockets is open
        have hrest := hcovered stage [] hclosing i hmem (hless.opened i hi)
        cases hrest
    · exact hless.held i hi hserves

theorem Covered.works (h : Covered s) (hw : Worked s a s') (hlive : s'.aborted = false) :
    Covered s' := by
  intro stage rest hclosing i hi hopen
  cases hw with
  | startAccept k j htask => exact h stage rest hclosing i hi hopen
  | close k htask hnone =>
      cases hclosing
      exact hi
  | collides k htask hsome => cases hlive
  | cancels j rest₀ stage₀ stage' hclosing₀ hstage =>
      cases hclosing
      exact h stage₀ (j :: rest₀) hclosing₀ i hi hopen
  | closes j rest₀ hclosing₀ =>
      -- the first of the sockets is not open any more
      cases hclosing
      obtain ⟨hopen, hne⟩ := Bool.and_eq_true_iff.mp hopen
      have hmem := h .close_f (j :: rest) hclosing₀ i hi hopen
      exact (List.mem_cons.mp hmem).resolve_left (bne_iff_ne.mp hne)
  | clears stage₀ hclosing₀ => cases hclosing
  | ends k l hloop hplace hstop =>
      exact h stage rest hclosing i hi (isOpen_reap.mp hopen).1
  | second k l ok hloop hplace hwaits => cases hlive
  | moves k l a place clients hloop hmove => exact h stage rest hclosing i hi hopen

/-- What a loop of `bind` leaves. -/
structure Bound (s s' : Server) : Prop where
  isStop : s'.isStop = s.isStop
  tasks : s'.tasks = s.tasks
  loops : s'.loops = s.loops
  started : s'.started = s.started
  closing : s'.closing = s.closing
  made : s.made ≤ s'.made
  before : ∀ i ∈ s.socks, i ∈ s'.socks
  opened : ∀ i, s'.isOpen i = true → s.isOpen i = true ∨ i ∈ s'.socks ∧ s.made ≤ i
  kept : ∀ i, s.isOpen i = true → s'.isOpen i = true
  inv : Inv s → Inv s'

theorem bound_one (s : Server) : Bound s { s with
    socks := s.socks ++ [s.made]
    made := s.made + 1
    isOpen := fun i => s.isOpen i || i == s.made } where
  isStop := rfl
  tasks := rfl
  loops := rfl
  started := rfl
  closing := rfl
  made := Nat.le_succ _
  before := fun i hi => List.mem_append_left _ hi
  opened := by
    intro i hi
    rcases Bool.or_eq_true_iff.mp hi with hi | hi
    · exact .inl hi
    · obtain rfl := beq_iff_eq.mp hi
      exact .inr ⟨List.mem_append_right _ List.mem_cons_self, le_rfl⟩
  kept := fun i hi => Bool.or_eq_true_iff.mpr (.inl hi)
  inv := by
    intro h
    refine ⟨?_, fun i hi => ?_, fun i hi => ?_, fun i hi => ?_, fun i hi => ?_⟩
    · refine List.nodup_append.mpr ⟨h.once, List.nodup_singleton _, ?_⟩
      rintro i hi j hj rfl
      obtain rfl := List.mem_singleton.mp hj
      exact absurd (h.below _ hi) (lt_irrefl _)
    · rcases List.mem_append.mp hi with hi | hi
      · exact (h.below i hi).trans (Nat.lt_succ_self _)
      · exact (List.mem_singleton.mp hi).trans_lt (Nat.lt_succ_self _)
    · rcases Bool.or_eq_true_iff.mp hi with hi | hi
      · exact (h.known i hi).trans (Nat.lt_succ_self _)
      · exact (beq_iff_eq.mp hi).trans_lt (Nat.lt_succ_self _)
    · exact (h.served i hi).trans (Nat.lt_succ_self _)
    · rw [holds_iff]
      rcases Bool.or_eq_true_iff.mp hi with hi | hi
      · exact (holds_iff.mp (h.owned i hi)).imp_left (List.mem_append_left _)
      · exact .inl (List.mem_append_right _ (List.mem_singleton.mpr (beq_iff_eq.mp hi)))

theorem Bound.trans {s₁ s₂ s₃ : Server} (h : Bound s₁ s₂) (h' : Bound s₂ s₃) : Bound s₁ s₃ where
  isStop := h'.isStop.trans h.isStop
  tasks := h'.tasks.trans h.tasks
  loops := h'.loops.trans h.loops
  started := h'.started.trans h.started
  closing := h'.closing.trans h.closing
  made := h.made.trans h'.made
  before := fun i hi => h'.before i (h.before i hi)
  opened := by
    intro i hi
    rcases h'.opened i hi with hi | ⟨hi, hnew⟩
    · exact (h.opened i hi).imp_right (And.imp_left (h'.before i))
    · exact .inr ⟨hi, h.made.trans hnew⟩
  kept := fun i hi => h'.kept i (h.kept i hi)
  inv := fun hinv => h'.inv (h.inv hinv)

theorem bound_all (results : List Bool) (s : Server) : Bound s (bindAll results s) := by
  induction results generalizing s with
  | nil =>
      exact ⟨rfl, rfl, rfl, rfl, rfl, le_rfl, fun i hi => hi, fun i hi => .inl hi, fun i hi => hi,
        fun h => h⟩
  | cons result rest ih =>
      cases result with
      | true => exact (bound_one s).trans (ih _)
      | false => exact ih s

theorem Bound.serves (h : Bound s s') (i : Nat) : s'.serves i = s.serves i := by
  rw [Server.serves, Server.serves, h.tasks, h.loops]

/-- The end of a `bind` that fails. -/
theorem Inv.dropped (h : Inv s) : Inv ({ s with socks := [] } : Server).reap := by
  refine ⟨List.nodup_nil, fun i hi => ?_, fun i hi => ?_, h.served, fun i hi => ?_⟩
  · cases hi
  · exact h.known i (isOpen_reap.mp hi).1
  · exact (isOpen_reap.mp hi).2

theorem Inv.bind (h : Inv s) (results : List Bool) : Inv (s.bind results) := by
  have hinv := (bound_all results s).inv h
  unfold Server.bind
  dsimp only
  split
  · exact ⟨hinv.once, hinv.below, hinv.known, hinv.served, hinv.owned⟩
  · have hdropped := hinv.dropped
    exact ⟨hdropped.once, hdropped.below, hdropped.known, hdropped.served, hdropped.owned⟩

theorem bind_loops (results : List Bool) (s : Server) :
    (s.bind results).loops = s.loops ∧ (s.bind results).started = s.started := by
  have hb := bound_all results s
  unfold Server.bind
  dsimp only
  split
  · exact ⟨hb.loops, hb.started⟩
  · exact ⟨hb.loops, hb.started⟩

theorem bind_closing (results : List Bool) (s : Server) : (s.bind results).closing = s.closing := by
  have hb := bound_all results s
  unfold Server.bind
  dsimp only
  split
  · exact hb.closing
  · exact hb.closing

/-- A `bind` that does something while the function of `stop` runs aborts. -/
theorem Covered.bind (h : Covered s) {results : List Bool}
    (hlive : (s.bind results).aborted = false) : Covered (s.bind results) := by
  cases results with
  | nil => exact h
  | cons result rest =>
      have hnone : s.closing.isSome = false := hlive
      intro stage left hclosing
      rw [bind_closing] at hclosing
      rw [hclosing] at hnone
      cases hnone

theorem serves_start {i : Nat} (h : s.start.serves i = true) : s.serves i = true ∨ i ∈ s.socks := by
  unfold start at h
  split at h
  · exact .inl h
  · rw [serves_iff] at h
    rcases h with hmem | hmem
    · rcases List.mem_append.mp hmem with hmem | hmem
      · exact .inl (serves_iff.mpr (.inl hmem))
      · obtain ⟨j, hj, heq⟩ := List.mem_map.mp hmem
        cases heq
        exact .inr hj
    · exact .inl (serves_iff.mpr (.inr hmem))

theorem start_serves {i : Nat} (h : s.serves i = true) : s.start.serves i = true := by
  unfold start
  split
  · exact h
  · rw [serves_iff] at h ⊢
    exact h.imp_left (List.mem_append_left _)

theorem tasks_start (s : Server) {task : Task} (h : task ∈ s.tasks) : task ∈ s.start.tasks := by
  unfold start
  split
  · exact h
  · exact List.mem_append_left _ h

/-- What `start` leaves alone. -/
structure SameSockets (s s' : Server) : Prop where
  socks : s'.socks = s.socks
  made : s'.made = s.made
  isOpen : s'.isOpen = s.isOpen
  loops : s'.loops = s.loops
  started : s'.started = s.started
  closing : s'.closing = s.closing
  clients : s'.clients = s.clients
  aborted : s'.aborted = s.aborted

theorem start_same (s : Server) : SameSockets s s.start := by
  unfold start
  split
  · exact ⟨rfl, rfl, rfl, rfl, rfl, rfl, rfl, rfl⟩
  · exact ⟨rfl, rfl, rfl, rfl, rfl, rfl, rfl, rfl⟩

theorem Inv.start (h : Inv s) : Inv s.start := by
  have hsame := s.start_same
  refine ⟨?_, fun i hi => ?_, fun i hi => ?_, fun i hi => ?_, fun i hi => ?_⟩
  · rw [hsame.socks]
    exact h.once
  · rw [hsame.socks] at hi
    rw [hsame.made]
    exact h.below i hi
  · rw [hsame.isOpen] at hi
    rw [hsame.made]
    exact h.known i hi
  · rw [hsame.made]
    exact (serves_start hi).elim (h.served i) (h.below i)
  · rw [hsame.isOpen] at hi
    rw [holds_iff, hsame.socks]
    exact (holds_iff.mp (h.owned i hi)).imp_right start_serves

theorem serves_stop (s : Server) (i : Nat) : s.stop.serves i = s.serves i := by
  rw [Bool.eq_iff_iff, serves_iff, serves_iff]
  refine or_congr ?_ Iff.rfl
  simp [stop]

theorem Inv.stop (h : Inv s) : Inv s.stop := by
  refine ⟨h.once, h.below, h.known, fun i hi => ?_, fun i hi => ?_⟩
  · rw [serves_stop] at hi
    exact h.served i hi
  · rw [holds_iff, serves_stop]
    exact holds_iff.mp (h.owned i hi)

/-- What holds in every state of a run. -/
structure Sound (s : Server) : Prop where
  inv : Inv s
  covered : s.aborted = false → Covered s

theorem Sound.works (h : Sound s) (hlive : s.aborted = false) (hw : Worked s a s') : Sound s' :=
  ⟨h.inv.of_less (h.covered hlive) hw.less, (h.covered hlive).works hw⟩

theorem Sound.step (h : Sound s) (hs : s.step a = some s') : Sound s' := by
  obtain ⟨hlive, hact⟩ := step_eq hs
  cases a with
  | bind results =>
      cases hact
      exact ⟨h.inv.bind results, (h.covered hlive).bind⟩
  | start =>
      cases hact
      have hsame := s.start_same
      refine ⟨h.inv.start, fun _ stage rest hclosing i hi hopen => ?_⟩
      rw [hsame.closing] at hclosing
      rw [hsame.socks] at hi
      rw [hsame.isOpen] at hopen
      exact h.covered hlive stage rest hclosing i hi hopen
  | stop =>
      cases hact
      exact ⟨h.inv.stop, fun _ => h.covered hlive⟩
  | run k => exact h.works hlive (worked (a := .run k) trivial hs)
  | close => exact h.works hlive (worked (a := .close) trivial hs)
  | test k => exact h.works hlive (worked (a := .test k) trivial hs)
  | attempt k r => exact h.works hlive (worked (a := .attempt k r) trivial hs)
  | add k ok => exact h.works hlive (worked (a := .add k ok) trivial hs)
  | wake k => exact h.works hlive (worked (a := .wake k) trivial hs)

/-- The server has all listening sockets in `m_socks`. -/
def Owned (s : Server) : Prop := ∀ i, s.isOpen i = true → i ∈ s.socks

/-- A `bind` that fails has no accept loop on a socket of the server that listens. -/
def Unserved (s : Server) : Act → Prop
  | .bind results => results.all (· == true) = true ∨
      ∀ i ∈ s.socks, s.isOpen i = true → s.serves i = false
  | _ => True

theorem Owned.of_less (h : Owned s) (hcovered : Covered s) (hless : Less s s') : Owned s' := by
  intro i hi
  have hmem := h i (hless.opened i hi)
  rcases hless.socks with hsocks | ⟨-, stage, hclosing⟩
  · rw [hsocks]
    exact hmem
  · have hrest := hcovered stage [] hclosing i hmem (hless.opened i hi)
    cases hrest

theorem Owned.bind (hinv : Inv s) (h : Owned s) {results : List Bool}
    (hfree : Unserved s (.bind results)) : Owned (s.bind results) := by
  have hb := bound_all results s
  have howned : Owned (bindAll results s) := fun i hi =>
    (hb.opened i hi).elim (fun hopen => hb.before i (h i hopen)) And.left
  unfold Server.bind
  dsimp only
  split
  · exact howned
  · rename_i hfails
    intro i hi
    obtain ⟨hopen, hholds⟩ := isOpen_reap.mp hi
    have hserves : s.serves i = true := by
      rw [← hb.serves i]
      exact (holds_iff.mp hholds).resolve_left List.not_mem_nil
    rcases hb.opened i hopen with hold | ⟨-, hnew⟩
    · -- an older socket is not served, and a new one cannot be
      rw [(hfree.resolve_left hfails) i (h i hold) hold] at hserves
      cases hserves
    · exact absurd (hinv.served i hserves) (Nat.not_lt.mpr hnew)

theorem not_owned_bind {results : List Bool} (hserved : ¬Unserved s (.bind results)) :
    ¬Owned (s.bind results) := by
  have hb := bound_all results s
  obtain ⟨hfails, hsome⟩ := not_or.mp hserved
  obtain ⟨i, hopen, hserves⟩ : ∃ i, s.isOpen i = true ∧ s.serves i = true := by
    by_contra hnone
    refine hsome fun i _ hopen => ?_
    by_contra htrue
    exact hnone ⟨i, hopen, by simpa using htrue⟩
  intro howned
  unfold Server.bind at howned
  dsimp only at howned
  rw [if_neg hfails] at howned
  refine List.not_mem_nil (howned i (isOpen_reap.mpr ⟨hb.kept i hopen, holds_iff.mpr (.inr ?_)⟩))
  rw [← hb.serves i] at hserves
  exact hserves

theorem Owned.works (h : Owned s) (hsound : Sound s) (ha : a.Works) (hs : s.step a = some s') :
    Owned s' :=
  h.of_less (hsound.covered (step_eq hs).1) (worked ha hs).less

end Server

open Server

theorem sound_inductive : serverSys.Inductive (fun _ _ => True) Sound where
  init := by
    rintro s rfl
    refine ⟨⟨List.nodup_nil, fun i hi => ?_, fun i hi => ?_, fun i hi => ?_, fun i hi => ?_⟩,
      fun _ stage rest hclosing => ?_⟩
    · cases hi
    · cases hi
    · cases hi
    · cases hi
    · cases hclosing
  step := fun _ _ _ h _ hs => h.step hs

/-- Along a run, the server has all its listening sockets in `m_socks` if and only if no `bind`
fails while there is an accept loop, or the task for one, on one of them. -/
theorem sockets_owned {s t : Server} {acts : List Act} (hreach : serverSys.Reachable s)
    (howned : Owned s) (hrun : serverSys.exec (fun _ _ => true) s acts = some t) :
    serverSys.Along Owned s acts ↔ serverSys.Meets Unserved s acts := by
  refine TSys.along_iff_meets sound_inductive (fun s a s' hsound h hfree hs => ?_)
    (fun s a s' _ hserved hs => ?_) hrun (sound_inductive.invariant hreach) howned
  · have hs : s.step a = some s' := hs
    cases a with
    | bind results =>
        cases (step_eq hs).2
        exact h.bind hsound.inv hfree
    | start =>
        cases (step_eq hs).2
        have hsame := s.start_same
        intro i hi
        rw [hsame.isOpen] at hi
        rw [hsame.socks]
        exact h i hi
    | stop =>
        cases (step_eq hs).2
        exact h
    | run k => exact h.works hsound (a := .run k) trivial hs
    | close => exact h.works hsound (a := .close) trivial hs
    | test k => exact h.works hsound (a := .test k) trivial hs
    | attempt k r => exact h.works hsound (a := .attempt k r) trivial hs
    | add k ok => exact h.works hsound (a := .add k ok) trivial hs
    | wake k => exact h.works hsound (a := .wake k) trivial hs
  · have hs : s.step a = some s' := hs
    cases a with
    | bind results =>
        cases (step_eq hs).2
        exact not_owned_bind hserved
    | _ => exact absurd trivial hserved

section Witness

/-- A second `bind` that fails, while the socket of the first is accepted on. -/
def secondBind : List Act := [.bind [true], .start, .run 0, .bind [true, false]]

theorem sockets_owned_second :
    serverSys.Along Owned .new [.bind [true, false], .bind [true], .start] ∧
      ¬serverSys.Along Owned .new secondBind := by
  have hreach : serverSys.Reachable .new := .init rfl
  have howned : Owned .new := fun i hi => by cases hi
  constructor
  · refine (sockets_owned hreach howned rfl).mpr ⟨.inr fun i hi => ?_, fun s hs => ?_⟩
    · cases hi
    · cases hs
      refine ⟨.inl rfl, fun s hs => ?_⟩
      cases hs
      exact ⟨trivial, fun _ _ => trivial⟩
  · intro halong
    have hmeets := (sockets_owned hreach howned rfl).mp halong
    obtain ⟨-, hmeets⟩ := hmeets
    obtain ⟨-, hmeets⟩ := hmeets _ rfl
    obtain ⟨-, hmeets⟩ := hmeets _ rfl
    obtain ⟨hfails | hfree, -⟩ := hmeets _ rfl
    · exact absurd hfails (by decide)
    · exact absurd (hfree 0 (List.mem_singleton.mpr rfl) rfl) (by decide)

end Witness

end Gxh.TcpServer
