import Gxh.TcpServer.Lifecycle

/-!
# The end of a server

What becomes of the accept loops and the sockets after `TcpServer::stop`, in any interleaving of the
accept worker's threads.

* `stop_winds_down` — the worker comes to rest, each loop takes at most one more client, and the
  sockets of `m_socks` are closed. No loop is left if none registers its event between the
  `cancelAll` in `close` and `close_f`, as none does on a worker with one thread; one that does is
  never scheduled again.
* `restart_spins` — a `start` before the function of `stop` has ended leaves accept loops on closed
  sockets, which never end and accept nothing.
-/

namespace Gxh.TcpServer

/-- A step of the accept worker that waits for no client. -/
def Act.own : Act → Bool
  | .run _ | .close | .test _ | .attempt _ _ | .add _ _ => true
  | _ => false

theorem Act.works_of_own {a : Act} (h : a.own = true) : a.Works := by
  cases a with
  | bind results => cases h
  | start => cases h
  | stop => cases h
  | _ => trivial

/-- How many moves a loop of a stopped server has before it, if nobody wakes it. -/
def Place.steps : Place → Nat
  | .test => 1
  | .attempt => 3
  | .adding => 2
  | .parked => 0

def Task.steps : Task → Nat
  | .startAccept _ => 2
  | .close => 0

def CloseStage.steps : CloseStage → Nat
  | .cancelAll => 3
  | .hookedClose => 2
  | .close_f => 1

/-- The loop is in `accept`. -/
def Loop.accepts (id : Nat) (l : Loop) : Bool := l.id == id && l.place != .test

namespace Server

variable {s s' s₀ : Server} {a : Act} {k : Nat} {l : Loop}

/-! ## Rest -/

/-- The calls that the functions of `stop` have before them. -/
def calls (s : Server) : Nat :=
  (match s.closing with
    | none => 0
    | some (stage, rest) => 3 * rest.length + stage.steps) +
    s.tasks.countP (· == .close) * (3 * s.socks.length + 4)

/-- The moves that the loops have before them. -/
def pending (s : Server) : Nat :=
  (s.tasks.map Task.steps).sum + (s.loops.map fun l => l.place.steps).sum +
    (!s.aborted).toNat

/-- A step of the accept worker that waits for no client. -/
def Goes (s' s : Server) : Prop := ∃ a : Act, a.own = true ∧ s.step a = some s'

/-- Fewer calls of `stop`, or fewer moves of the loops. -/
def Nearer (s' s : Server) : Prop :=
  s'.calls < s.calls ∨ s'.calls = s.calls ∧ s'.pending < s.pending

theorem Moves.nearer {place : Place} {clients : List Nat} (hm : Moves s k l a place clients)
    (hstop : s.isStop = true) (ha : a.own = true) : place.steps < l.place.steps := by
  cases hm with
  | enter hplace hgoes =>
      rw [hstop] at hgoes
      cases hgoes
  | client hplace hopen => rw [hplace]; decide
  | error hplace => rw [hplace]; decide
  | EAGAIN hplace hopen => rw [hplace]; decide
  | parks ok hplace hopen => rw [hplace]; decide
  | refused ok hplace => rw [hplace]; decide
  | wakes hplace hopen => cases ha

theorem Worked.nearer (hw : Worked s a s') (hstop : s.isStop = true) (hlive : s.aborted = false)
    (ha : a.own = true) : Nearer s' s := by
  cases hw with
  | startAccept k i htask =>
      have hclose := countP_eraseIdx htask (· == .close)
      have htasks := sum_eraseIdx Task.steps htask
      refine .inr ⟨?_, ?_⟩
      · have hcount : (s.tasks.eraseIdx k).countP (· == .close) = s.tasks.countP (· == .close) :=
          hclose.symm
        simp only [calls, hcount]
      · simp only [pending, List.map_append, List.sum_append, List.map_cons, List.map_nil,
          List.sum_cons, List.sum_nil, Task.steps, Place.steps] at htasks ⊢
        omega
  | close k htask hnone =>
      have hclose := countP_eraseIdx htask (· == .close)
      -- a task has one call more than the function that it starts
      refine .inl ?_
      rw [if_pos (beq_self_eq_true _)] at hclose
      simp only [calls, hnone, hclose, CloseStage.steps, Nat.add_mul]
      omega
  | collides k htask hsome =>
      have hclose := countP_eraseIdx htask (· == .close)
      refine .inl ?_
      rw [if_pos (beq_self_eq_true _)] at hclose
      simp only [calls, hclose, Nat.add_mul]
      omega
  | cancels i rest stage stage' hclosing hstage =>
      -- a stage less, whatever the loops that are woken have before them now
      refine .inl ?_
      simp only [calls, hclosing, cancelAll]
      rcases hstage with ⟨rfl, rfl⟩ | ⟨rfl, rfl⟩
      · simp only [CloseStage.steps]
        omega
      · simp only [CloseStage.steps]
        omega
  | closes i rest hclosing =>
      refine .inl ?_
      simp only [calls, hclosing, CloseStage.steps, List.length_cons]
      omega
  | clears stage hclosing =>
      have hpos : 0 < stage.steps := by cases stage <;> decide
      -- the tasks that are left have no sockets to do
      refine .inl ?_
      have hmul : s.tasks.countP (· == .close) * (3 * ([] : List Nat).length + 4) ≤
          s.tasks.countP (· == .close) * (3 * s.socks.length + 4) :=
        Nat.mul_le_mul_left _ (by simp only [List.length_nil]; omega)
      simp only [calls, hclosing, List.length_nil] at hmul ⊢
      omega
  | ends k l hloop hplace _ =>
      have hloops := sum_eraseIdx (fun l : Loop => l.place.steps) hloop
      refine .inr ⟨rfl, ?_⟩
      rw [hplace] at hloops
      simp only [pending, reap, Place.steps] at hloops ⊢
      omega
  | second k l ok hloop hplace hwaits =>
      refine .inr ⟨rfl, ?_⟩
      simp only [pending, hlive, Bool.not_false, Bool.not_true, Bool.toNat_true, Bool.toNat_false]
      omega
  | moves k l a place clients hloop hmove =>
      have hless := hmove.nearer hstop ha
      have hloops := sum_set (fun l : Loop => l.place.steps) hloop { l with place }
      refine .inr ⟨rfl, ?_⟩
      simp only [pending, moveTo] at hloops ⊢
      omega

theorem Worked.isStop (hw : Worked s a s') : s'.isStop = s.isStop := by
  cases hw <;> rfl

/-- A stopped worker comes to rest, if no client comes. -/
theorem goes_acc (s : Server) (hstop : s.isStop = true) : Acc Goes s := by
  -- a call of `stop` may wake loops, and between two calls the loops come to rest
  have hwf : WellFounded (InvImage (Prod.Lex (· < ·) (· < ·)) fun s : Server =>
      (s.calls, s.pending)) :=
    InvImage.wf _ (WellFounded.prod_lex Nat.lt_wfRel.wf Nat.lt_wfRel.wf)
  induction s using hwf.induction with
  | _ s ih =>
  refine Acc.intro s ?_
  rintro s' ⟨a, ha, hs⟩
  have hw := worked (Act.works_of_own ha) hs
  refine ih s' (Prod.lex_def.mpr ?_) (hw.isStop.trans hstop)
  exact hw.nearer hstop (step_eq hs).1 ha

/-- The worker has nothing to do until a client comes. -/
structure Settled (s : Server) : Prop where
  live : s.aborted = false
  rests : ∀ a : Act, a.own = true → s.step a = none

theorem Settled.act (h : Settled s) (ha : a.own = true) : s.act a = none := by
  have hrests := h.rests a ha
  unfold step at hrests
  rwa [h.live] at hrests

theorem settled_of_nil (hlive : s.aborted = false) (htasks : s.tasks = []) (hloops : s.loops = [])
    (hclosing : s.closing = none) : Settled s := by
  refine ⟨hlive, fun a ha => ?_⟩
  unfold step
  rw [hlive, if_neg Bool.false_ne_true]
  cases a with
  | run k => simp [Server.act, htasks]
  | close => simp [Server.act, closeNext, hclosing]
  | test k => simp [Server.act, hloops]
  | attempt k r => simp [Server.act, hloops]
  | add k ok => simp [Server.act, hloops]
  | _ => cases ha

/-- A worker at rest has no task, and its loops wait for clients. -/
theorem Settled.waits (h : Settled s) :
    s.tasks = [] ∧ s.closing = none ∧ ∀ l ∈ s.loops, l.place = .parked := by
  refine ⟨?_, ?_, fun l hl => ?_⟩
  · have hrun : s.act (.run 0) = none := h.act rfl
    cases htasks : s.tasks with
    | nil => rfl
    | cons task rest => simp [Server.act, htasks] at hrun
  · have hclose : s.closeNext = none := h.act (a := .close) rfl
    unfold closeNext at hclose
    split at hclose
    · assumption
    · cases hclose
    · cases hclose
    · cases hclose
    · cases hclose
  · obtain ⟨k, hk⟩ := List.mem_iff_getElem?.mp hl
    cases hplace : l.place with
    | parked => rfl
    -- every other place has a step that is always open
    | test =>
        have htest : s.act (.test k) = none := h.act rfl
        simp [Server.act, hk, hplace, when] at htest
    | attempt =>
        have hattempt : s.act (.attempt k .error) = none := h.act rfl
        simp [Server.act, hk, hplace, answer] at hattempt
    | adding =>
        have hadd : s.act (.add k true) = none := h.act rfl
        simp [Server.act, hk, hplace, when] at hadd

/-! ## Clients -/

theorem accepts_moved {place : Place} (hplace : place ≠ .test) (id : Nat) :
    Loop.accepts id { l with place } = (l.id == id) := by
  simp [Loop.accepts, hplace]

theorem accepts_test (l : Loop) (id : Nat) : Loop.accepts id { l with place := .test } = false := by
  simp [Loop.accepts]

/-- A move of a stopped loop. -/
theorem Moves.clients_le {place : Place} {clients : List Nat} (hm : Moves s k l a place clients)
    (hloop : s.loops[k]? = some l) (hstop : s.isStop = true) (id : Nat) :
    clients.count id + (s.loops.set k { l with place }).countP (Loop.accepts id) ≤
      s.clients.count id + s.loops.countP (Loop.accepts id) := by
  have hset := countP_set_add (p := Loop.accepts id) { l with place } hloop
  have hstays (hfrom : l.place ≠ .test) (hto : place ≠ .test) :
      Loop.accepts id { l with place } = Loop.accepts id l :=
    (accepts_moved hto id).trans (accepts_moved hfrom id).symm
  cases hm with
  | enter hplace hgoes =>
      -- the only way into `accept`
      rw [hstop] at hgoes
      cases hgoes
  | client hplace hopen =>
      have haccepts : Loop.accepts id l = (l.id == id) :=
        accepts_moved (hplace ▸ Place.noConfusion) id
      rw [accepts_test, haccepts, if_neg Bool.false_ne_true] at hset
      rw [List.count_cons]
      omega
  | error hplace =>
      rw [accepts_test, if_neg Bool.false_ne_true] at hset
      omega
  | EAGAIN hplace hopen =>
      rw [hstays (hplace ▸ Place.noConfusion) Place.noConfusion] at hset
      omega
  | parks ok hplace hopen =>
      rw [hstays (hplace ▸ Place.noConfusion) Place.noConfusion] at hset
      omega
  | refused ok hplace =>
      rw [accepts_test, if_neg Bool.false_ne_true] at hset
      omega
  | wakes hplace hopen =>
      rw [hstays (hplace ▸ Place.noConfusion) Place.noConfusion] at hset
      omega

/-- A loop of a stopped server accepts a client only when it is in `accept`, and then it leaves. -/
theorem Worked.clients_le (hw : Worked s a s') (hstop : s.isStop = true) (id : Nat) :
    s'.clients.count id + s'.loops.countP (Loop.accepts id) ≤
      s.clients.count id + s.loops.countP (Loop.accepts id) := by
  cases hw with
  | startAccept k i htask =>
      show _ + (s.loops ++ [_]).countP _ ≤ _
      rw [List.countP_append, List.countP_singleton, if_neg (by simp [Loop.accepts])]
      exact le_rfl
  | cancels i rest stage stage' hclosing hstage =>
      show _ + (s.loops.map _).countP _ ≤ _
      rw [List.countP_map]
      refine Nat.add_le_add_left (List.countP_mono_left fun l _ hl => ?_) _
      -- a loop that is woken was in `accept` already
      rw [Function.comp_apply] at hl
      split at hl
      · rename_i hwaits
        obtain ⟨-, hplace⟩ := Bool.and_eq_true_iff.mp hwaits
        obtain ⟨hid, -⟩ := Bool.and_eq_true_iff.mp hl
        rw [Loop.accepts, beq_iff_eq.mp hplace]
        exact Bool.and_eq_true_iff.mpr ⟨hid, rfl⟩
      · exact hl
  | ends k l hloop hplace _ =>
      exact Nat.add_le_add_left (List.eraseIdx_sublist _ _).countP_le _
  | moves k l a place clients hloop hmove => exact hmove.clients_le hloop hstop id
  | _ => exact le_rfl

/-- No two loops have the same number. -/
structure Numbered (s : Server) : Prop where
  once : (s.loops.map Loop.id).Nodup
  below : ∀ l ∈ s.loops, l.id < s.started

theorem Numbered.of_map (h : Numbered s)
    (hids : (s'.loops.map Loop.id).Sublist (s.loops.map Loop.id))
    (hstarted : s'.started = s.started) : Numbered s' := by
  refine ⟨h.once.sublist hids, fun l hl => ?_⟩
  obtain ⟨l₀, hl₀, heq⟩ := List.mem_map.mp (hids.subset (List.mem_map_of_mem hl))
  rw [hstarted, ← heq]
  exact h.below l₀ hl₀

theorem Numbered.works (h : Numbered s) (hw : Worked s a s') : Numbered s' := by
  cases hw with
  | startAccept k i htask =>
      -- the new number is above all others
      refine ⟨?_, fun l hl => ?_⟩
      · rw [List.map_append, List.nodup_append]
        refine ⟨h.once, List.nodup_singleton _, ?_⟩
        rintro id hid id' hid' rfl
        obtain rfl := List.mem_singleton.mp hid'
        obtain ⟨l, hl, heq⟩ := List.mem_map.mp hid
        exact absurd heq (h.below l hl).ne
      · rcases List.mem_append.mp hl with hl | hl
        · exact (h.below l hl).trans (Nat.lt_succ_self _)
        · obtain rfl := List.mem_singleton.mp hl
          exact Nat.lt_succ_self _
  | cancels i rest stage stage' hclosing hstage =>
      refine h.of_map ?_ rfl
      show ((s.cancelAll i).loops.map Loop.id).Sublist _
      rw [map_cancelAll Loop.id (fun _ _ => rfl)]
  | ends k l hloop hplace _ => exact h.of_map ((List.eraseIdx_sublist _ _).map _) rfl
  | moves k l a place clients hloop hmove =>
      refine h.of_map ?_ rfl
      show ((s.moveTo k l place).loops.map Loop.id).Sublist _
      rw [map_moveTo Loop.id (fun _ _ => rfl) hloop]
  | _ => exact ⟨h.once, h.below⟩

theorem Numbered.step (h : Numbered s) (hs : s.step a = some s') : Numbered s' := by
  have hact := (step_eq hs).2
  cases a with
  | bind results =>
      cases hact
      obtain ⟨hloops, hstarted⟩ := bind_loops results s
      exact h.of_map (hloops ▸ List.Sublist.refl _) hstarted
  | start =>
      cases hact
      have hsame := s.start_same
      exact h.of_map (hsame.loops ▸ List.Sublist.refl _) hsame.started
  | stop =>
      cases hact
      exact ⟨h.once, h.below⟩
  | run k => exact h.works (worked (a := .run k) trivial hs)
  | close => exact h.works (worked (a := .close) trivial hs)
  | test k => exact h.works (worked (a := .test k) trivial hs)
  | attempt k r => exact h.works (worked (a := .attempt k r) trivial hs)
  | add k ok => exact h.works (worked (a := .add k ok) trivial hs)
  | wake k => exact h.works (worked (a := .wake k) trivial hs)

theorem Numbered.countP_le (h : Numbered s) (id : Nat) :
    s.loops.countP (Loop.accepts id) ≤ (s.loops.any (Loop.accepts id)).toNat := by
  cases hany : s.loops.any (Loop.accepts id) with
  | false =>
      refine Nat.le_of_eq (List.countP_eq_zero.mpr fun l hl hacc => ?_)
      exact absurd hany (Bool.ne_false_iff.mpr (List.any_eq_true.mpr ⟨l, hl, hacc⟩))
  | true =>
      calc s.loops.countP (Loop.accepts id)
          ≤ s.loops.countP ((· == id) ∘ Loop.id) :=
            List.countP_mono_left fun l _ hl => (Bool.and_eq_true_iff.mp hl).1
        _ = (s.loops.map Loop.id).count id := (List.countP_map ..).symm
        _ ≤ 1 := List.nodup_iff_count_le_one.mp h.once id

/-! ## Sockets -/

/-- The function of `stop` has still to run or to end, or it has closed the sockets that the server
had. -/
structure Closing (s₀ s : Server) : Prop where
  opened : ∀ i, s.isOpen i = true → s₀.isOpen i = true
  closed : (.close ∈ s.tasks ∨ s.closing ≠ none) ∧ s.socks = s₀.socks ∨
    s.socks = [] ∧ ∀ i ∈ s₀.socks, s.isOpen i = false

theorem Closing.same (h : Closing s₀ s) (hopen : s'.isOpen = s.isOpen) (hsocks : s'.socks = s.socks)
    (hleft : .close ∈ s.tasks ∨ s.closing ≠ none → .close ∈ s'.tasks ∨ s'.closing ≠ none) :
    Closing s₀ s' := by
  refine ⟨fun i hi => h.opened i (hopen ▸ hi), ?_⟩
  rw [hopen, hsocks]
  exact h.closed.imp_left (And.imp_left hleft)

theorem Closing.works (h : Closing s₀ s) (hcovered : Covered s) (hw : Worked s a s') :
    Closing s₀ s' := by
  cases hw with
  | startAccept k i htask =>
      refine h.same rfl rfl (Or.imp_left fun hclose => ?_)
      refine mem_eraseIdx_of_ne htask hclose fun heq => ?_
      cases heq
  | close k htask hnone => exact h.same rfl rfl fun _ => .inr (Option.some_ne_none _)
  | collides k htask hsome => exact h.same rfl rfl fun _ => .inr hsome
  | cancels i rest stage stage' hclosing hstage =>
      exact h.same rfl rfl fun _ => .inr (Option.some_ne_none _)
  | closes i rest hclosing =>
      refine ⟨fun j hj => h.opened j (Bool.and_eq_true_iff.mp hj).1, ?_⟩
      refine h.closed.imp (fun hleft => ⟨.inr (Option.some_ne_none _), hleft.2⟩) fun hdone =>
        ⟨hdone.1, fun j hj => ?_⟩
      exact Bool.and_eq_false_iff.mpr (.inl (hdone.2 j hj))
  | clears stage hclosing =>
      -- no socket is left to do, so none of `m_socks` is open
      refine ⟨h.opened, .inr ⟨rfl, fun i hi => ?_⟩⟩
      rcases h.closed with ⟨-, hsocks⟩ | ⟨-, hclosed⟩
      · refine Bool.eq_false_iff.mpr fun hopen => ?_
        have hrest := hcovered stage [] hclosing i (hsocks ▸ hi) hopen
        cases hrest
      · exact hclosed i hi
  | ends k l hloop hplace hstop =>
      refine ⟨fun i hi => h.opened i (isOpen_reap.mp hi).1, h.closed.imp_right fun hdone =>
        ⟨hdone.1, fun i hi => ?_⟩⟩
      exact Bool.and_eq_false_iff.mpr (.inl (hdone.2 i hi))
  | second k l ok hloop hplace hwaits => exact h.same rfl rfl id
  | moves k l a place clients hloop hmove => exact h.same rfl rfl id

/-- No loop registers its event between the `cancelAll` in `close` and `close_f`. -/
def Unhindered (s : Server) : Act → Prop
  | .add k _ => ∀ l, s.loops[k]? = some l → ∀ rest, s.closing ≠ some (.close_f, l.sock :: rest)
  | _ => True

/-- On one thread, no loop goes on while the function of `stop` runs. -/
theorem unhindered_of_stage (h : ∀ rest, s.closing ≠ some (.close_f, rest)) : Unhindered s a := by
  cases a with
  | add k ok => exact fun l _ rest => h (l.sock :: rest)
  | _ => trivial

/-- A loop that waits does so on an open socket that is not about to be closed. -/
def Attended (s : Server) : Prop :=
  ∀ l ∈ s.loops, l.place = .parked →
    s.isOpen l.sock = true ∧ ∀ rest, s.closing ≠ some (.close_f, l.sock :: rest)

/-- The socket of a loop stays open when others are closed for want of an owner. -/
theorem isOpen_reap_of_mem (hl : l ∈ s.loops) (hopen : s.isOpen l.sock = true) :
    s.reap.isOpen l.sock = true :=
  isOpen_reap.mpr ⟨hopen, holds_iff.mpr (.inr (serves_iff.mpr (.inr (List.mem_map_of_mem hl))))⟩

theorem isOpen_bind_of_mem (results : List Bool) (hl : l ∈ s.loops)
    (hopen : s.isOpen l.sock = true) : (s.bind results).isOpen l.sock = true := by
  have hb := bound_all results s
  rw [← hb.loops] at hl
  unfold Server.bind
  dsimp only
  split
  · exact hb.kept _ hopen
  · exact isOpen_reap_of_mem (s := { bindAll results s with socks := [] }) hl (hb.kept _ hopen)

theorem Attended.works (h : Attended s) (hfree : Unhindered s a) (hw : Worked s a s') :
    Attended s' := by
  intro l hl hplace
  cases hw with
  | startAccept k i htask =>
      rcases List.mem_append.mp hl with hl | hl
      · exact h l hl hplace
      · obtain rfl := List.mem_singleton.mp hl
        cases hplace
  | close k htask hnone =>
      refine ⟨(h l hl hplace).1, fun rest hclosing => ?_⟩
      cases hclosing
  | cancels i rest stage stage' hclosing hstage =>
      obtain ⟨l₀, hl₀, rfl⟩ := List.mem_map.mp hl
      split at hplace
      · cases hplace
      · -- a loop that still waits does so on another socket than the first
        rename_i hwaits
        rw [if_neg hwaits]
        refine ⟨(h l₀ hl₀ hplace).1, fun rest' hclosing' => hwaits ?_⟩
        obtain ⟨-, hsock⟩ := Prod.mk.inj (Option.some.inj hclosing')
        obtain ⟨rfl, -⟩ := List.cons.inj hsock
        exact Bool.and_eq_true_iff.mpr ⟨beq_self_eq_true _, beq_iff_eq.mpr hplace⟩
  | closes i rest hclosing =>
      obtain ⟨hopen, hnext⟩ := h l hl hplace
      refine ⟨Bool.and_eq_true_iff.mpr ⟨hopen, bne_iff_ne.mpr fun heq => ?_⟩, fun rest' h' => ?_⟩
      · exact hnext rest (heq ▸ hclosing)
      · cases h'
  | clears stage hclosing =>
      refine ⟨(h l hl hplace).1, fun rest h' => ?_⟩
      cases h'
  | ends k l' hloop hplace' hstop =>
      obtain ⟨hopen, hnext⟩ := h l (List.mem_of_mem_eraseIdx hl) hplace
      exact ⟨isOpen_reap_of_mem (s := { s with loops := s.loops.eraseIdx k }) hl hopen, hnext⟩
  | moves k l' a place clients hloop hmove =>
      rcases List.mem_or_eq_of_mem_set hl with hl | rfl
      · exact h l hl hplace
      · -- only `addEvent` parks a loop
        obtain rfl : place = .parked := hplace
        cases hmove with
        | parks ok hplace' hopen => exact ⟨hopen, hfree l' hloop⟩
  | _ => exact h l hl hplace

theorem Attended.step (h : Attended s) (hfree : Unhindered s a) (hs : s.step a = some s') :
    Attended s' := by
  have hact := (step_eq hs).2
  cases a with
  | bind results =>
      cases hact
      intro l hl hplace
      obtain ⟨hloops, -⟩ := bind_loops results s
      rw [hloops] at hl
      obtain ⟨hopen, hnext⟩ := h l hl hplace
      rw [bind_closing]
      exact ⟨isOpen_bind_of_mem results hl hopen, hnext⟩
  | start =>
      cases hact
      have hsame := s.start_same
      intro l hl hplace
      rw [hsame.loops] at hl
      rw [hsame.isOpen, hsame.closing]
      exact h l hl hplace
  | stop =>
      cases hact
      exact h
  | run k => exact h.works hfree (worked (a := .run k) trivial hs)
  | close => exact h.works hfree (worked (a := .close) trivial hs)
  | test k => exact h.works hfree (worked (a := .test k) trivial hs)
  | attempt k r => exact h.works hfree (worked (a := .attempt k r) trivial hs)
  | add k ok => exact h.works hfree (worked (a := .add k ok) trivial hs)
  | wake k => exact h.works hfree (worked (a := .wake k) trivial hs)

end Server

open Server

theorem numbered_inductive : serverSys.Inductive (fun _ _ => True) Numbered where
  init := by
    rintro s rfl
    refine ⟨List.nodup_nil, fun l hl => ?_⟩
    cases hl
  step := fun _ _ _ h _ hs => h.step hs

theorem attended_inductive : serverSys.Inductive Unhindered Attended where
  init := by
    rintro s rfl l hl
    cases hl
  step := fun _ _ _ h hfree hs => h.step hfree hs

/-! ## After `stop` -/

namespace Server

/-- What the steps of the accept worker keep, once `stop` has been called in `s₀`. -/
structure Follows (s₀ s : Server) : Prop where
  sound : Sound s
  closing : Closing s₀ s

theorem Follows.stop (h : Sound s₀) : Follows s₀ s₀.stop where
  sound := ⟨h.inv.stop, h.covered⟩
  closing :=
    ⟨fun _ hi => hi, .inl ⟨.inl (List.mem_append_right _ (List.mem_singleton.mpr rfl)), rfl⟩⟩

/-- The function of `stop` has not ended. -/
theorem Follows.refl (h : Sound s) (hleft : .close ∈ s.tasks ∨ s.closing ≠ none) : Follows s s :=
  ⟨h, fun _ hi => hi, .inl ⟨hleft, rfl⟩⟩

theorem Follows.step (h : Follows s₀ s) (ha : a.Works) (hs : s.step a = some s') :
    Follows s₀ s' :=
  ⟨h.sound.step hs, h.closing.works (h.sound.covered (step_eq hs).1) (worked ha hs)⟩

/-- When the function of `stop` is done, the sockets are closed. -/
theorem Follows.closed (h : Follows s₀ s) (htasks : .close ∉ s.tasks)
    (hclosing : s.closing = none) : s.socks = [] ∧ ∀ i ∈ s₀.socks, s.isOpen i = false := by
  refine h.closing.closed.resolve_left ?_
  rintro ⟨hclose | hcloses, -⟩
  · exact htasks hclose
  · exact hcloses hclosing

theorem Follows.none_open (h : Follows s₀ s) (howned : Owned s₀)
    (hclosed : ∀ i ∈ s₀.socks, s.isOpen i = false) (i : Nat) : s.isOpen i = false := by
  refine Bool.eq_false_iff.mpr fun htrue => ?_
  exact Bool.eq_false_iff.mp (hclosed i (howned i (h.closing.opened i htrue))) htrue

/-- A loop at rest waits on an open socket. -/
theorem Attended.no_loops (h : Attended s) (hsettled : s.Settled)
    (hclosed : ∀ i, s.isOpen i = false) : s.loops = [] := by
  refine List.eq_nil_iff_forall_not_mem.mpr fun l hl => ?_
  obtain ⟨hopen, -⟩ := h l hl (hsettled.waits.2.2 l hl)
  exact Bool.eq_false_iff.mp (hclosed l.sock) hopen

end Server

/-- A stopped server comes to its end, whatever happens: as long as no client comes, it takes only
finitely many steps, and a loop accepts at most one more client, which it does only if it was in
`accept`. Once there is nothing to do but to wait for clients, the sockets that it had are closed;
and if these were all its listening sockets and no loop has ever registered its event too late, then
there is no accept loop any more. -/
theorem stop_winds_down {s t : Server} {acts : List Act} (hreach : serverSys.Reachable s)
    (hworks : ∀ a ∈ acts, a.Works)
    (hrun : serverSys.exec (fun _ _ => true) s (.stop :: acts) = some t) :
    Acc Goes t ∧
      (∀ id, t.clients.count id ≤ s.clients.count id + (s.loops.any (Loop.accepts id)).toNat) ∧
      (t.Settled → t.socks = [] ∧ (∀ i ∈ s.socks, t.isOpen i = false) ∧
        (Owned s → (∀ i, t.isOpen i = false) ∧
          (serverSys.Reaches Unhindered s → serverSys.Meets Unhindered s (.stop :: acts) →
            t.loops = []))) := by
  have hall := hrun
  rw [TSys.exec, if_pos rfl] at hrun
  obtain ⟨s', hs, hrest⟩ := Option.bind_eq_some_iff.mp hrun
  obtain rfl : s.stop = s' := Option.some.inj (step_eq hs).2
  have hfollows : Follows s t :=
    TSys.exec_keeps (fun _ _ _ h ha hs => h.step ha hs) hworks hrest
      (.stop (sound_inductive.invariant hreach))
  obtain ⟨hstop, hclients⟩ : t.isStop = true ∧
      ∀ id, t.clients.count id + t.loops.countP (Loop.accepts id) ≤
        s.clients.count id + s.loops.countP (Loop.accepts id) := by
    -- each client takes a loop out of `accept`
    refine TSys.exec_keeps (P := fun x => x.isStop = true ∧
      ∀ id, x.clients.count id + x.loops.countP (Loop.accepts id) ≤
        s.clients.count id + s.loops.countP (Loop.accepts id)) (fun x a x' hx ha hs => ?_)
      hworks hrest ⟨rfl, fun id => le_rfl⟩
    have hw := worked ha hs
    exact ⟨hw.isStop.trans hx.1, fun id => (hw.clients_le hx.1 id).trans (hx.2 id)⟩
  refine ⟨goes_acc t hstop, fun id => ?_, fun hsettled => ?_⟩
  · have hone := (numbered_inductive.invariant hreach).countP_le id
    exact (Nat.le_add_right _ _).trans ((hclients id).trans (Nat.add_le_add_left hone _))
  · obtain ⟨htasks, hclosing, -⟩ := hsettled.waits
    obtain ⟨hsocks, hclosed⟩ := hfollows.closed (htasks ▸ List.not_mem_nil) hclosing
    refine ⟨hsocks, hclosed, fun howned => ?_⟩
    have hnone := hfollows.none_open howned hclosed
    refine ⟨hnone, fun hfree hmeets => ?_⟩
    have hattended := attended_inductive.invariant (TSys.reaches_of_meets hfree hall hmeets)
    exact hattended.no_loops hsettled hnone

section Witness

/-- Two sockets, each with a loop that waits. -/
def serve : List Act :=
  [.bind [true, true], .start, .run 0, .run 0, .test 0, .attempt 0 .EAGAIN, .add 0 true, .test 1,
    .attempt 1 .client, .test 1, .attempt 1 .EAGAIN, .add 1 true]

/-- One more client comes in before the sockets are closed, and the other loop tries again in
between. -/
def lastClient : List Act :=
  [.wake 0, .attempt 0 .client, .test 0, .run 0, .close, .close, .close, .close, .attempt 0 .EAGAIN,
    .add 0 true, .close, .close, .close, .attempt 0 .error, .test 0]

/-- No event is registered in the last stage of a socket. -/
def early (s : Server) : Act → Bool
  | .add _ _ => s.closing.all fun closing => closing.1 != .close_f
  | _ => true

theorem unhindered_of_early (s : Server) (a : Act) (h : early s a = true) : Unhindered s a := by
  cases a with
  | add k ok =>
      refine unhindered_of_stage fun rest hclosing => ?_
      rw [early, hclosing] at h
      cases h
  | _ => trivial

theorem mem_two {i : Nat} (h : (i == 0 || i == 1) = true) : i ∈ [0, 1] := by
  rcases Bool.or_eq_true_iff.mp h with h | h
  · obtain rfl : i = 0 := beq_iff_eq.mp h
    exact List.mem_cons_self
  · obtain rfl : i = 1 := beq_iff_eq.mp h
    exact List.mem_cons_of_mem _ List.mem_cons_self

theorem owned_serve {s : Server} (hs : serverSys.exec (fun _ _ => true) .new serve = some s) :
    Owned s := by
  cases hs
  exact fun i hi => mem_two hi

theorem stop_winds_down_serving : ∃ s t,
    serverSys.exec (fun _ _ => true) .new serve = some s ∧
      serverSys.exec (fun _ _ => true) s (.stop :: lastClient) = some t ∧
      t.clients.count 0 ≤ 1 ∧ t.clients.count 1 ≤ 2 ∧ t.loops = [] ∧
      ∀ i, t.isOpen i = false := by
  obtain ⟨s, hs⟩ := Option.isSome_iff_exists.mp (show
    (serverSys.exec early .new serve).isSome = true from rfl)
  obtain ⟨t, ht⟩ := Option.isSome_iff_exists.mp (show
    (serverSys.exec early s (.stop :: lastClient)).isSome = true by cases hs; rfl)
  have hfree : serverSys.Reaches Unhindered s :=
    TSys.exec_reaches unhindered_of_early (.init rfl) hs
  obtain ⟨hrun, hmeets⟩ := TSys.exec_meets unhindered_of_early ht
  have hworks : ∀ a ∈ lastClient, a.Works := by
    intro a ha
    simp only [lastClient, List.mem_cons, List.not_mem_nil, or_false] at ha
    rcases ha with rfl | rfl | rfl | rfl | rfl | rfl | rfl | rfl | rfl | rfl | rfl | rfl | rfl |
      rfl | rfl <;> exact trivial
  obtain ⟨-, hclients, hend⟩ := stop_winds_down (hfree.mono fun _ _ _ => trivial) hworks hrun
  have hserve := (TSys.exec_meets unhindered_of_early hs).1
  have hsettled : t.Settled := by
    cases hs
    cases ht
    exact settled_of_nil rfl rfl rfl rfl
  obtain ⟨-, -, hall⟩ := hend hsettled
  obtain ⟨hnone, hloops⟩ := hall (owned_serve hserve)
  refine ⟨s, t, hserve, hrun, ?_, ?_, hloops hfree hmeets, hnone⟩
  · have hzero := hclients 0
    cases hs
    exact hzero
  · have hone := hclients 1
    cases hs
    exact hone

/-- Loop 0 registers its event between `cancelAll` and `close_f`. -/
def tooLate : List Act :=
  [.run 0, .close, .close, .attempt 0 .EAGAIN, .add 0 true, .close, .close, .close, .close, .close,
    .attempt 1 .error, .test 1]

/-- It is never scheduled again. -/
example : (serverSys.exec (fun _ _ => true) .new (serve ++ .stop :: tooLate)).map
    (fun t => (t.loops, t.closing, t.isOpen 0, t.isOpen 1)) =
      some ([⟨0, 0, .parked⟩], none, false, false) := rfl

end Witness

/-! ## `start` after `stop` -/

namespace Server

variable {s s' s₀ : Server} {a : Act} {k : Nat} {l : Loop}

/-- How many accept loops a socket has or is going to have. -/
def load (s : Server) (i : Nat) : Nat :=
  s.tasks.count (.startAccept i) + (s.loops.map Loop.sock).count i

/-- A loop of a server that is not stopped goes on. -/
theorem Moves.clients_eq {place : Place} {clients : List Nat} (hm : Moves s k l a place clients)
    (hclosed : s.isOpen l.sock = false) : clients = s.clients := by
  cases hm with
  | client hplace hopen =>
      rw [hclosed] at hopen
      cases hopen
  | _ => rfl

/-- A step of a server that is not stopped ends no accept loop. -/
theorem Worked.running (hw : Worked s a s') (hstop : s.isStop = false) :
    (∀ i, s'.load i = s.load i) ∧ ((∀ i, s.isOpen i = false) → s'.clients = s.clients) := by
  cases hw with
  | startAccept k i htask =>
      refine ⟨fun j => ?_, fun _ => rfl⟩
      have htasks := countP_eraseIdx htask (· == .startAccept j)
      simp only [load, List.count, List.map_append, List.countP_append, List.map_cons,
        List.map_nil, List.countP_singleton, beq_iff_eq, Task.startAccept.injEq] at htasks ⊢
      omega
  | close k htask hnone =>
      refine ⟨fun j => ?_, fun _ => rfl⟩
      have htasks := countP_eraseIdx htask (· == .startAccept j)
      simp only [load, List.count] at htasks ⊢
      rw [htasks]
      rfl
  | collides k htask hsome =>
      refine ⟨fun j => ?_, fun _ => rfl⟩
      have htasks := countP_eraseIdx htask (· == .startAccept j)
      simp only [load, List.count] at htasks ⊢
      rw [htasks]
      rfl
  | cancels i rest stage stage' hclosing hstage =>
      refine ⟨fun j => ?_, fun _ => rfl⟩
      show s.tasks.count _ + ((s.cancelAll i).loops.map Loop.sock).count j = _
      rw [map_cancelAll Loop.sock (fun _ _ => rfl)]
      rfl
  | ends k l hloop hplace hstopped =>
      -- a loop ends only when it finds the server stopped
      rw [hstop] at hstopped
      cases hstopped
  | moves k l a place clients hloop hmove =>
      refine ⟨fun j => ?_, fun hclosed => hmove.clients_eq (hclosed l.sock)⟩
      show s.tasks.count _ + ((s.moveTo k l place).loops.map Loop.sock).count j = _
      rw [map_moveTo Loop.sock (fun _ _ => rfl) hloop]
      rfl
  | _ => exact ⟨fun j => rfl, fun _ => rfl⟩

/-- Each socket of the server gets one more accept loop. -/
theorem load_start (hstop : s.isStop = true) (honce : s.socks.Nodup) {i : Nat} (hi : i ∈ s.socks) :
    s.start.load i = s.load i + 1 := by
  have hcount : (s.socks.map Task.startAccept).count (.startAccept i) = 1 := by
    refine (List.count_map_of_injective _ _ (fun x y h => by cases h; rfl) _).trans ?_
    exact List.count_eq_one_of_mem honce hi
  unfold start load
  rw [hstop, Bool.not_true, if_neg Bool.false_ne_true, List.count_append, hcount]
  show _ + (s.loops.map Loop.sock).count i = _
  omega

/-- Without a function of `stop` none starts. -/
theorem Worked.no_close (hw : Worked s a s') (htasks : .close ∉ s.tasks)
    (hnone : s.closing = none) : .close ∉ s'.tasks ∧ s'.closing = none := by
  have herase (k : Nat) : .close ∉ s.tasks.eraseIdx k := fun hmem =>
    htasks (List.mem_of_mem_eraseIdx hmem)
  cases hw with
  | startAccept k i htask => exact ⟨herase k, hnone⟩
  | close k htask _ => exact absurd (List.mem_of_getElem? htask) htasks
  | collides k htask hsome => exact absurd hnone hsome
  | cancels i rest stage stage' hclosing hstage => cases hnone.symm.trans hclosing
  | closes i rest hclosing => cases hnone.symm.trans hclosing
  | clears stage hclosing => cases hnone.symm.trans hclosing
  | _ => exact ⟨htasks, hnone⟩

/-- What a server is left with when it is started too early: accept loops on closed sockets. -/
structure Spinning (s₀ s : Server) : Prop where
  isStop : s.isStop = false
  socks : s.socks = []
  tasks : .close ∉ s.tasks
  closing : s.closing = none
  closed : ∀ i, s.isOpen i = false
  clients : s.clients = s₀.clients
  load : ∀ i, s.load i = s₀.load i

theorem Spinning.works (h : Spinning s₀ s) (hw : Worked s a s') : Spinning s₀ s' := by
  obtain ⟨hload, hclients⟩ := hw.running h.isStop
  obtain ⟨htasks, hclosing⟩ := hw.no_close h.tasks h.closing
  have hless := hw.less
  refine ⟨hw.isStop.trans h.isStop, ?_, htasks, hclosing, fun i => ?_,
    (hclients h.closed).trans h.clients, fun i => (hload i).trans (h.load i)⟩
  · exact hless.socks.elim (fun hsocks => hsocks.trans h.socks) And.left
  · refine Bool.eq_false_iff.mpr fun htrue => ?_
    exact Bool.eq_false_iff.mp (h.closed i) (hless.opened i htrue)

theorem Follows.start (h : Follows s₀ s) : Follows s₀ s.start := by
  have hsame := s.start_same
  refine ⟨⟨h.sound.inv.start, fun hlive stage rest hclosing i hi hopen => ?_⟩,
    h.closing.same hsame.isOpen hsame.socks fun hleft => ?_⟩
  · rw [hsame.closing] at hclosing
    rw [hsame.socks] at hi
    rw [hsame.isOpen] at hopen
    exact h.sound.covered (hsame.aborted ▸ hlive) stage rest hclosing i hi hopen
  · rw [hsame.closing]
    exact hleft.imp_left s.tasks_start

end Server

/-- A server that is started between `stop` and the end of the function that `stop` schedules never
serves again. When this function is done, all its sockets are closed, and each of them has one
accept loop more than before; and however long they go round, and however often `start` is called,
no client is accepted and no loop ends. -/
theorem restart_spins {s t u : Server} {acts more : List Act} (hreach : serverSys.Reachable s)
    (howned : Owned s) (hstopped : s.isStop = true) (hleft : .close ∈ s.tasks ∨ s.closing ≠ none)
    (hworks : ∀ a ∈ acts, a.Works)
    (hrun : serverSys.exec (fun _ _ => true) s (.start :: acts) = some t)
    (htasks : .close ∉ t.tasks) (hclosing : t.closing = none)
    (hmore : ∀ a ∈ more, a.Works ∨ a = .start)
    (hafter : serverSys.exec (fun _ _ => true) t more = some u) :
    u.isStop = false ∧ u.socks = [] ∧ (∀ i, u.isOpen i = false) ∧ u.clients = t.clients ∧
      ∀ i ∈ s.socks, u.load i = s.load i + 1 := by
  have hsound : Sound s := sound_inductive.invariant hreach
  rw [TSys.exec, if_pos rfl] at hrun
  obtain ⟨s₁, hs₁, hrest⟩ := Option.bind_eq_some_iff.mp hrun
  obtain rfl : s.start = s₁ := Option.some.inj (step_eq hs₁).2
  have hrunning : s.start.isStop = false := by
    unfold start
    rw [hstopped]
    rfl
  have hfollows : Follows s t :=
    TSys.exec_keeps (fun _ _ _ h ha hs => h.step ha hs) hworks hrest
      (Follows.refl hsound hleft).start
  obtain ⟨hstop, hkept⟩ : t.isStop = false ∧ ∀ i, t.load i = s.start.load i := by
    refine TSys.exec_keeps (P := fun x => x.isStop = false ∧
      ∀ i, x.load i = s.start.load i) (fun x a x' hx ha hs => ?_) hworks hrest
      ⟨hrunning, fun i => rfl⟩
    have hw := worked ha hs
    exact ⟨hw.isStop.trans hx.1, fun i => ((hw.running hx.1).1 i).trans (hx.2 i)⟩
  obtain ⟨hsocks, hclosed⟩ := hfollows.closed htasks hclosing
  have hspins : Spinning t u := by
    refine TSys.exec_keeps (fun x a x' h ha hs => ?_) hmore hafter
      ⟨hstop, hsocks, htasks, hclosing, hfollows.none_open howned hclosed, rfl, fun i => rfl⟩
    rcases ha with ha | rfl
    · exact h.works (worked ha hs)
    · -- a server that runs is not started again
      obtain rfl : x.start = x' := Option.some.inj (step_eq hs).2
      have hsame : x.start = x := by
        unfold start
        rw [h.isStop]
        rfl
      rw [hsame]
      exact h
  refine ⟨hspins.isStop, hspins.socks, hspins.closed, hspins.clients, fun i hi => ?_⟩
  rw [hspins.load, hkept, load_start hstopped hsound.inv.once hi]

section Witness

/-- One more client comes in for socket 0, whose loop then ends, and the function of `stop` begins
with this socket. -/
def halfStopped : List Act :=
  [.stop, .wake 0, .attempt 0 .client, .test 0, .run 0, .close]

/-- The function of `stop` goes on, and then come the two tasks of `start`. -/
def tooEarly : List Act :=
  [.close, .close, .close, .close, .close, .close, .run 0, .run 0]

def goingRound : List Act :=
  [.attempt 0 .error, .test 0, .attempt 0 .error, .test 1, .attempt 1 .error, .start, .test 2,
    .attempt 2 .error, .test 1]

theorem restart_spins_serving : ∃ s t u,
    serverSys.exec (fun _ _ => true) .new (serve ++ halfStopped) = some s ∧
      serverSys.exec (fun _ _ => true) s (.start :: tooEarly) = some t ∧
      serverSys.exec (fun _ _ => true) t goingRound = some u ∧ u.clients = t.clients ∧
      u.load 0 = 1 ∧ u.load 1 = 2 := by
  obtain ⟨s, hs⟩ := Option.isSome_iff_exists.mp (show
    (serverSys.exec (fun _ _ => true) .new (serve ++ halfStopped)).isSome = true from rfl)
  obtain ⟨t, ht⟩ := Option.isSome_iff_exists.mp (show
    (serverSys.exec (fun _ _ => true) s (.start :: tooEarly)).isSome = true by
      cases hs
      rfl)
  obtain ⟨u, hu⟩ := Option.isSome_iff_exists.mp (show
    (serverSys.exec (fun _ _ => true) t goingRound).isSome = true by
      cases hs
      cases ht
      rfl)
  have hreach : serverSys.Reachable s := TSys.exec_reaches (fun _ _ _ => trivial) (.init rfl) hs
  have hworks : ∀ a ∈ tooEarly, a.Works := by
    intro a ha
    simp only [tooEarly, List.mem_cons, List.not_mem_nil, or_false] at ha
    rcases ha with rfl | rfl | rfl | rfl | rfl | rfl | rfl | rfl <;> exact trivial
  have hmore : ∀ a ∈ goingRound, a.Works ∨ a = .start := by
    intro a ha
    simp only [goingRound, List.mem_cons, List.not_mem_nil, or_false] at ha
    rcases ha with rfl | rfl | rfl | rfl | rfl | rfl | rfl | rfl | rfl
    case inr.inr.inr.inr.inr.inl => exact .inr rfl
    all_goals exact .inl trivial
  have hdone : .close ∉ t.tasks ∧ t.closing = none := by
    cases hs
    cases ht
    exact ⟨List.not_mem_nil, rfl⟩
  have hbefore : Owned s ∧ s.isStop = true ∧ s.closing ≠ none := by
    cases hs
    exact ⟨fun i hi => mem_two (Bool.and_eq_true_iff.mp hi).1, rfl, Option.some_ne_none _⟩
  have hloads : s.socks = [0, 1] ∧ s.load 0 = 0 ∧ s.load 1 = 1 := by
    cases hs
    exact ⟨rfl, rfl, rfl⟩
  obtain ⟨howned, hstopped, hleft⟩ := hbefore
  obtain ⟨hall, hzero, hone⟩ := hloads
  obtain ⟨-, -, -, hclients, hcount⟩ :=
    restart_spins hreach howned hstopped (.inr hleft) hworks ht hdone.1 hdone.2 hmore hu
  rw [hall] at hcount
  refine ⟨s, t, u, hs, ht, hu, hclients, ?_, ?_⟩
  · rw [hcount 0 List.mem_cons_self, hzero]
  · rw [hcount 1 (List.mem_cons_of_mem _ List.mem_cons_self), hone]

end Witness

end Gxh.TcpServer
