import Gxh.Lib.TSys
import Mathlib.Algebra.BigOperators.Group.List.Basic
import Mathlib.Algebra.GroupWithZero.Nat
import Mathlib.Data.List.Perm.Basic
import Mathlib.Logic.Function.Basic

/-!
# The pool of client connections

`HttpConnectionPool` (`http_connection.cc`): `getConnection` and, as the deleter of the pointers it
returns, `ReleasePtr`. Any number of calls are under way at a time; the mutex covers the idle list
only, and `m_total` is adjusted outside it.

* `PoolState.calls` has the calls that are between two of their steps, with what they hold.
* `PoolState.events` records which connections `getConnection` reuses and which are discarded, and
  `created` when a connection was made. No function of the source reads either.

The clock and the peers are free. `m_total` is an integer without overflow.
-/

namespace Gxh.Http.ConnectionPool

/-- `HttpConnection`, as the pool uses it. -/
structure HttpConnection where
  connected : Bool
  createTime : Nat
  request : Nat
  /-- the clock when it was made -/
  created : Nat
  /-- how often it has been handed out -/
  lentTimes : Nat
  deriving DecidableEq, Repr

/-- The limits of a pool. -/
structure Config where
  maxAliveTime : Nat
  maxRequest : Nat

/-- A call between two of its steps. -/
inductive Phase
  /-- `getConnection` has read the clock -/
  | locking (now : Nat)
  /-- `getConnection` has released the lock: what it will delete, how many there were, and the
  connection it has taken -/
  | sweeping (left : List Nat) (n : Nat) (ptr : Option Nat)
  /-- there was no idle connection to take -/
  | connecting
  /-- before `++m_total` -/
  | counting (c : Nat)
  /-- `ReleasePtr` before `delete` -/
  | discarding (c : Nat)
  /-- `ReleasePtr` before `--m_total` -/
  | uncounting
  /-- `ReleasePtr` before the lock -/
  | returning (c : Nat)
  deriving DecidableEq, Repr

/-- The connections a call holds. -/
def Phase.holds : Phase → List Nat
  | .sweeping left _ ptr => left ++ ptr.toList
  | .counting c | .discarding c | .returning c => [c]
  | _ => []

/-- What a call still has in `m_total`. -/
def Phase.counted : Phase → Nat
  | .sweeping _ n ptr => n + ptr.toList.length
  | .discarding _ | .uncounting | .returning _ => 1
  | _ => 0

/-- What happens to a connection, with what the tests see of it. -/
inductive Event
  | reused (created now : Nat)
  | discarded (connected : Bool) (request created now : Nat)
  deriving DecidableEq, Repr

structure PoolState where
  conns : List Nat
  total : Int
  heap : Nat → HttpConnection
  next : Nat
  clock : Nat
  lent : List Nat
  deleted : List Nat
  calls : List Phase
  events : List Event

def PoolState.start : PoolState where
  conns := []
  total := 0
  heap := fun _ => ⟨false, 0, 0, 0, 0⟩
  next := 0
  clock := 0
  lent := []
  deleted := []
  calls := []
  events := []

inductive PoolAct
  /-- the clock shows `t` -/
  | clock (t : Nat)
  /-- a peer, or a caller, closes a connection -/
  | disconnect (c : Nat)
  | getConnection
  /-- the last pointer to `c` is dropped -/
  | release (c : Nat)
  /-- the next step of a call; `ok` is whether a connect succeeds -/
  | step (i : Nat) (ok : Bool)
  deriving DecidableEq, Repr

/-- The loop of `getConnection` under the lock: the connections to delete, the one taken, and
the idle ones that are left. -/
def popIdle (cfg : Config) (heap : Nat → HttpConnection) (now : Nat) :
    List Nat → List Nat × Option Nat × List Nat
  | [] => ([], none, [])
  | c :: rest =>
      if !(heap c).connected || (heap c).createTime + cfg.maxAliveTime > now then
        (c :: (popIdle cfg heap now rest).1, (popIdle cfg heap now rest).2)
      else ([], some c, rest)

/-- The test of `ReleasePtr`, after `++ptr->m_request`. -/
def discards (cfg : Config) (h : HttpConnection) (now : Nat) : Bool :=
  !h.connected || h.createTime + cfg.maxAliveTime ≥ now || h.request ≥ cfg.maxRequest

namespace PoolState

def discardEvent (s : PoolState) (now c : Nat) : Event :=
  .discarded (s.heap c).connected (s.heap c).request (s.heap c).created now

/-- The pointer is returned to the caller. -/
def lend (s : PoolState) (c : Nat) : PoolState :=
  { s with
    lent := c :: s.lent
    heap := Function.update s.heap c
      { s.heap c with lentTimes := (s.heap c).lentTimes + 1 } }

/-- The section of `getConnection` under the lock. -/
def lockSection (cfg : Config) (s : PoolState) (i now : Nat) : PoolState :=
  let (invalid, ptr, rest) := popIdle cfg s.heap now s.conns
  { s with
    conns := rest
    calls := s.calls.set i (.sweeping invalid invalid.length ptr)
    events := (ptr.toList.map fun c => .reused (s.heap c).created now) ++
      invalid.map (s.discardEvent now) ++ s.events }

/-- `new HttpConnection(sock)`. -/
def make (s : PoolState) (i : Nat) : PoolState :=
  { s with
    heap := Function.update s.heap s.next ⟨true, 0, 0, s.clock, 0⟩
    next := s.next + 1
    calls := s.calls.set i (.counting s.next) }

/-- `ReleasePtr`, up to the outcome of its test. -/
def releasePtr (cfg : Config) (s : PoolState) (c : Nat) : PoolState :=
  let h := { s.heap c with request := (s.heap c).request + 1 }
  let s := { s with lent := s.lent.erase c, heap := Function.update s.heap c h }
  if discards cfg h s.clock then
    { s with
      calls := s.calls ++ [.discarding c]
      events := s.discardEvent s.clock c :: s.events }
  else { s with calls := s.calls ++ [.returning c] }

/-- The next step of call `i`, which stands at `phase`. -/
def advance (cfg : Config) (s : PoolState) (i : Nat) (ok : Bool) : Phase → PoolState
  | .locking now => s.lockSection cfg i now
  | .sweeping (c :: left) n ptr =>
      { s with deleted := c :: s.deleted, calls := s.calls.set i (.sweeping left n ptr) }
  | .sweeping [] n ptr =>
      match ptr with
      | some c => { s with total := s.total - n, calls := s.calls.eraseIdx i }.lend c
      | none => { s with total := s.total - n, calls := s.calls.set i .connecting }
  | .connecting => if ok then s.make i else { s with calls := s.calls.eraseIdx i }
  | .counting c => { s with total := s.total + 1, calls := s.calls.eraseIdx i }.lend c
  | .discarding c => { s with deleted := c :: s.deleted, calls := s.calls.set i .uncounting }
  | .uncounting => { s with total := s.total - 1, calls := s.calls.eraseIdx i }
  | .returning c => { s with conns := s.conns ++ [c], calls := s.calls.eraseIdx i }

end PoolState

def poolStep (cfg : Config) (s : PoolState) : PoolAct → Option PoolState
  | .clock t => some { s with clock := t }
  | .disconnect c =>
      some { s with heap := Function.update s.heap c { s.heap c with connected := false } }
  | .getConnection => some { s with calls := s.calls ++ [.locking s.clock] }
  | .release c => when (c ∈ s.lent) (s.releasePtr cfg c)
  | .step i ok => (s.calls[i]?).map fun phase => s.advance cfg i ok phase

def poolSys (cfg : Config) : TSys PoolState PoolAct where
  init := fun s => s = .start
  step := poolStep cfg

/-- Where the connections are: idle, with a call, lent, or deleted. -/
def PoolState.everywhere (s : PoolState) : List Nat :=
  s.conns ++ s.calls.flatMap Phase.holds ++ s.lent ++ s.deleted

structure Accounted (cfg : Config) (s : PoolState) : Prop where
  /-- every connection that was made is in exactly one place -/
  once : s.everywhere.Perm (List.range s.next)
  total : s.calls = [] → s.total = s.conns.length + s.lent.length
  uses : 1 ≤ cfg.maxRequest → ∀ c, (s.heap c).lentTimes ≤ cfg.maxRequest

/-! ## One call among the others -/

/-- A call, the calls before it and the calls after it. -/
theorem split_at {α : Type} {l : List α} {i : Nat} {x : α} (h : l[i]? = some x) :
    ∃ pre post, l = pre ++ x :: post ∧ (∀ y, l.set i y = pre ++ y :: post) ∧
      l.eraseIdx i = pre ++ post := by
  induction l generalizing i with
  | nil => simp at h
  | cons a rest ih =>
      cases i with
      | zero =>
          simp only [List.getElem?_cons_zero, Option.some.injEq] at h
          subst h
          exact ⟨[], rest, rfl, fun _ => rfl, rfl⟩
      | succ i =>
          obtain ⟨pre, post, hl, hset, herase⟩ := ih (by simpa using h)
          refine ⟨a :: pre, post, by rw [hl]; rfl, fun y => ?_, ?_⟩
          · rw [List.set_cons_succ, hset]
            rfl
          · rw [List.eraseIdx_cons_succ, herase]
            rfl

/-- The connections of a call that can be handed out again, and are known to be usable. -/
def Phase.ready : Phase → List Nat
  | .sweeping _ _ ptr => ptr.toList
  | .returning c => [c]
  | _ => []

theorem Phase.ready_subset (p : Phase) {c : Nat} (h : c ∈ p.ready) : c ∈ p.holds := by
  cases p with
  | sweeping left n ptr => exact List.mem_append_right left h
  | returning d => exact h
  | _ => cases h

theorem ready_subset (l : List Phase) {c : Nat} (h : c ∈ l.flatMap Phase.ready) :
    c ∈ l.flatMap Phase.holds := by
  obtain ⟨p, hp, hc⟩ := List.mem_flatMap.mp h
  exact List.mem_flatMap.mpr ⟨p, hp, p.ready_subset hc⟩

/-- The invariant: each connection is in one place, `m_total` is right once what each call still
has in it is taken into account, and a connection that can be handed out has been handed out as
often as it was released, which is less than `m_maxRequest`. -/
structure PoolInv (cfg : Config) (s : PoolState) : Prop where
  once : ∀ c, s.everywhere.count c = if c < s.next then 1 else 0
  total : s.total = (s.conns.length + s.lent.length + (s.calls.map Phase.counted).sum : Nat)
  ready : ∀ c ∈ s.conns ++ s.calls.flatMap Phase.ready,
    (s.heap c).lentTimes = (s.heap c).request ∧ (s.heap c).request < cfg.maxRequest
  fresh : ∀ c, .counting c ∈ s.calls → (s.heap c).lentTimes = 0 ∧ (s.heap c).request = 0
  lent : ∀ c ∈ s.lent, (s.heap c).lentTimes = (s.heap c).request + 1 ∧
    (1 ≤ cfg.maxRequest → (s.heap c).request < cfg.maxRequest)
  uses : 1 ≤ cfg.maxRequest → ∀ c, (s.heap c).lentTimes ≤ cfg.maxRequest

theorem PoolState.count_everywhere (s : PoolState) (c : Nat) :
    s.everywhere.count c = s.conns.count c + (s.calls.flatMap Phase.holds).count c +
      s.lent.count c + s.deleted.count c := by
  unfold everywhere
  rw [List.count_append, List.count_append, List.count_append]

/-- The loop splits the list in order. -/
theorem popIdle_append (cfg : Config) (heap : Nat → HttpConnection) (now : Nat) (l : List Nat) :
    (popIdle cfg heap now l).1 ++ (popIdle cfg heap now l).2.1.toList ++
      (popIdle cfg heap now l).2.2 = l := by
  induction l with
  | nil => rfl
  | cons c rest ih =>
      unfold popIdle
      split
      · simpa using ih
      · rfl

namespace PoolInv

variable {cfg : Config} {s : PoolState}

theorem accounted (h : PoolInv cfg s) : Accounted cfg s := by
  refine ⟨List.perm_iff_count.mpr fun c => ?_, fun hcalls => ?_, h.uses⟩
  · rw [h.once, List.nodup_range.count]
    simp
  · rw [h.total, hcalls]
    simp

theorem start (cfg : Config) : PoolInv cfg .start := by
  refine ⟨fun c => ?_, rfl, ?_, ?_, ?_, fun _ _ => Nat.zero_le _⟩
  · simp [PoolState.everywhere, PoolState.start]
  · simp [PoolState.start]
  · simp [PoolState.start]
  · simp [PoolState.start]

/-- Connections that keep their counts keep the invariant. -/
theorem of_heap (h : PoolInv cfg s) {heap : Nat → HttpConnection} (t : Nat)
    (hheap : ∀ c, (heap c).lentTimes = (s.heap c).lentTimes ∧
      (heap c).request = (s.heap c).request) : PoolInv cfg { s with heap, clock := t } := by
  refine ⟨h.once, h.total, fun c hc => ?_, fun c hc => ?_, fun c hc => ?_, fun hmax c => ?_⟩
  · show (heap c).lentTimes = (heap c).request ∧ (heap c).request < cfg.maxRequest
    rw [(hheap c).1, (hheap c).2]
    exact h.ready c hc
  · show (heap c).lentTimes = 0 ∧ (heap c).request = 0
    rw [(hheap c).1, (hheap c).2]
    exact h.fresh c hc
  · show (heap c).lentTimes = (heap c).request + 1 ∧
      (1 ≤ cfg.maxRequest → (heap c).request < cfg.maxRequest)
    rw [(hheap c).1, (hheap c).2]
    exact h.lent c hc
  · show (heap c).lentTimes ≤ cfg.maxRequest
    rw [(hheap c).1]
    exact h.uses hmax c

/-- A call that holds nothing is added. -/
theorem add_call (h : PoolInv cfg s) (now : Nat) :
    PoolInv cfg { s with calls := s.calls ++ [.locking now] } := by
  refine ⟨fun c => ?_, ?_, fun c hc => h.ready c ?_, fun c hc => h.fresh c ?_, h.lent, h.uses⟩
  · rw [← h.once c]
    simp [PoolState.everywhere, Phase.holds]
  · rw [h.total]
    simp [Phase.counted]
  · simpa [Phase.ready] using hc
  · simpa using hc

section Step

variable {pre post : List Phase} {phase : Phase}

/-- A connection that a call holds is nowhere else. -/
theorem elsewhere (h : PoolInv cfg s) (hcalls : s.calls = pre ++ phase :: post) {c : Nat}
    (hc : c ∈ phase.holds) :
    c ∉ s.conns ∧ c ∉ (pre ++ post).flatMap Phase.holds ∧ c ∉ s.lent ∧ c ∉ s.deleted ∧
      phase.holds.count c = 1 := by
  have honce := h.once c
  have hpos := List.count_pos_iff.mpr hc
  rw [s.count_everywhere, hcalls, List.flatMap_append, List.flatMap_cons, List.count_append,
    List.count_append] at honce
  have hle : (if c < s.next then 1 else 0) ≤ 1 := by split <;> omega
  rw [List.flatMap_append, ← List.count_eq_zero, ← List.count_eq_zero, ← List.count_eq_zero,
    ← List.count_eq_zero, List.count_append]
  omega

/-- How often the calls hold a connection, with one of them apart. -/
theorem count_holds (mid : List Phase) (c : Nat) :
    ((pre ++ mid ++ post).flatMap Phase.holds).count c =
      ((pre ++ post).flatMap Phase.holds).count c + (mid.flatMap Phase.holds).count c := by
  simp only [List.flatMap_append, List.count_append]
  omega

theorem sum_counted (mid : List Phase) :
    ((pre ++ mid ++ post).map Phase.counted).sum =
      ((pre ++ post).map Phase.counted).sum + (mid.map Phase.counted).sum := by
  simp only [List.map_append, List.sum_append]
  omega

/-- A call that holds `c` alone hands it out and ends; `total` is what it leaves in `m_total`. -/
theorem handOut (h : PoolInv cfg s) (hcalls : s.calls = pre ++ phase :: post) {i c : Nat}
    (herase : s.calls.eraseIdx i = pre ++ post) (hholds : phase.holds = [c])
    (huse : (s.heap c).lentTimes = (s.heap c).request ∧
      (1 ≤ cfg.maxRequest → (s.heap c).request < cfg.maxRequest))
    {total : Int} (htotal : total + phase.counted = s.total + 1) :
    PoolInv cfg ({ s with total, calls := s.calls.eraseIdx i }.lend c) := by
  obtain ⟨hconns, hothers, hlent, -, -⟩ := h.elsewhere hcalls (c := c) (by simp [hholds])
  have hne : ∀ {d}, d ∈ s.conns ++ (pre ++ post).flatMap Phase.holds → d ≠ c := by
    rintro d hd rfl
    exact (List.mem_append.mp hd).elim hconns hothers
  have hheap : ∀ d, d ≠ c → (({ s with total, calls := s.calls.eraseIdx i }.lend c).heap d) =
      s.heap d := fun d hd => Function.update_of_ne hd _ _
  have hself : (({ s with total, calls := s.calls.eraseIdx i }.lend c).heap c) =
      { s.heap c with lentTimes := (s.heap c).lentTimes + 1 } := Function.update_self _ _ _
  refine ⟨fun d => ?_, ?_, fun d hd => ?_, fun d hd => ?_, fun d hd => ?_, fun hmax d => ?_⟩
  · show _ = if d < s.next then 1 else 0
    rw [← h.once d, PoolState.count_everywhere, PoolState.count_everywhere]
    show s.conns.count d + ((s.calls.eraseIdx i).flatMap Phase.holds).count d +
      (c :: s.lent).count d + s.deleted.count d = _
    rw [herase, hcalls, List.append_cons, count_holds [phase] d, List.count_cons]
    simp only [List.flatMap_cons, List.flatMap_nil, List.append_nil, hholds, List.count_singleton]
    omega
  · show total = ((s.conns.length + (s.lent.length + 1) +
      ((s.calls.eraseIdx i).map Phase.counted).sum : Nat) : Int)
    have hold := h.total
    rw [hcalls, List.append_cons, sum_counted] at hold
    rw [herase]
    simp only [List.map_cons, List.map_nil, List.sum_cons, List.sum_nil] at hold
    omega
  · have hd : d ∈ s.conns ++ (s.calls.eraseIdx i).flatMap Phase.ready := hd
    rw [herase] at hd
    have hdne : d ≠ c := hne (List.mem_append.mpr ((List.mem_append.mp hd).imp_right
      (ready_subset _)))
    rw [hheap d hdne]
    refine h.ready d ?_
    rw [hcalls]
    simp only [List.mem_append, List.flatMap_append, List.flatMap_cons] at hd ⊢
    tauto
  · have hd : .counting d ∈ s.calls.eraseIdx i := hd
    rw [herase] at hd
    have hdne : d ≠ c := hne (List.mem_append_right _ (List.mem_flatMap.mpr
      ⟨_, hd, List.mem_singleton_self d⟩))
    rw [hheap d hdne]
    refine h.fresh d ?_
    rw [hcalls]
    simp only [List.mem_append, List.mem_cons] at hd ⊢
    tauto
  · by_cases hdc : d = c
    · rw [hdc, hself]
      exact ⟨by simp [huse.1], huse.2⟩
    · rw [hheap d hdc]
      exact h.lent d ((List.mem_cons.mp hd).resolve_left hdc)
  · by_cases hdc : d = c
    · rw [hdc, hself]
      have hlt := huse.2 hmax
      show (s.heap c).lentTimes + 1 ≤ cfg.maxRequest
      rw [huse.1]
      exact hlt
    · rw [hheap d hdc]
      exact h.uses hmax d

/-- A step in which connections move between the idle list, the call and the deleted ones. -/
theorem shift (h : PoolInv cfg s) (hcalls : s.calls = pre ++ phase :: post) {mid : List Phase}
    {conns deleted : List Nat} {total : Int} {events : List Event}
    (hplaces : ∀ d, conns.count d + (mid.flatMap Phase.holds).count d + deleted.count d =
      s.conns.count d + phase.holds.count d + s.deleted.count d)
    (htotal : total + s.conns.length + phase.counted =
      s.total + conns.length + (mid.map Phase.counted).sum)
    (hready : ∀ d ∈ conns ++ mid.flatMap Phase.ready, d ∈ s.conns ++ phase.ready)
    (hfresh : ∀ d, .counting d ∉ mid) :
    PoolInv cfg { s with conns, deleted, total, events, calls := pre ++ mid ++ post } := by
  refine ⟨fun d => ?_, ?_, fun d hd => h.ready d ?_, fun d hd => h.fresh d ?_, h.lent, h.uses⟩
  · show _ = if d < s.next then 1 else 0
    rw [← h.once d, PoolState.count_everywhere, PoolState.count_everywhere]
    show conns.count d + ((pre ++ mid ++ post).flatMap Phase.holds).count d + s.lent.count d +
      deleted.count d = _
    rw [hcalls, List.append_cons, count_holds mid d, count_holds [phase] d]
    have hd := hplaces d
    simp only [List.flatMap_cons, List.flatMap_nil, List.append_nil]
    omega
  · show total = ((conns.length + s.lent.length +
      ((pre ++ mid ++ post).map Phase.counted).sum : Nat) : Int)
    have hold := h.total
    rw [hcalls, List.append_cons, sum_counted] at hold
    rw [sum_counted]
    simp only [List.map_cons, List.map_nil, List.sum_cons, List.sum_nil] at hold
    omega
  · have hd : d ∈ conns ++ (pre ++ mid ++ post).flatMap Phase.ready := hd
    have hin := hready d
    rw [hcalls]
    simp only [List.mem_append, List.flatMap_append, List.flatMap_cons] at hd hin ⊢
    tauto
  · have hd : .counting d ∈ pre ++ mid ++ post := hd
    have hno := hfresh d
    rw [hcalls]
    simp only [List.mem_append, List.mem_cons] at hd ⊢
    tauto

/-- A new connection. -/
theorem make (h : PoolInv cfg s) (hcalls : s.calls = pre ++ .connecting :: post) {i : Nat}
    (hset : ∀ y, s.calls.set i y = pre ++ y :: post) : PoolInv cfg (s.make i) := by
  have hnew : s.next ∉ s.everywhere := by
    rw [← List.count_eq_zero, h.once, if_neg (Nat.lt_irrefl _)]
  have hheap : ∀ d ∈ s.everywhere, (s.make i).heap d = s.heap d := by
    intro d hd
    refine Function.update_of_ne ?_ _ _
    rintro rfl
    exact hnew hd
  have hwhere : ∀ d, d ∈ s.conns ∨ d ∈ s.calls.flatMap Phase.holds ∨ d ∈ s.lent →
      d ∈ s.everywhere := by
    intro d hd
    simp only [PoolState.everywhere, List.mem_append]
    tauto
  refine ⟨fun d => ?_, ?_, fun d hd => ?_, fun d hd => ?_, fun d hd => ?_, fun hmax d => ?_⟩
  · show (s.make i).everywhere.count d = if d < s.next + 1 then 1 else 0
    have hold := h.once d
    rw [PoolState.count_everywhere, hcalls, List.append_cons, count_holds] at hold
    rw [PoolState.count_everywhere]
    show s.conns.count d + ((s.calls.set i (.counting s.next)).flatMap Phase.holds).count d +
      s.lent.count d + s.deleted.count d = _
    rw [hset, List.append_cons, count_holds]
    simp only [List.flatMap_cons, List.flatMap_nil, List.append_nil, Phase.holds, List.count_nil,
      List.count_singleton, beq_iff_eq] at hold ⊢
    by_cases hd : s.next = d
    · rw [if_pos hd, if_pos (by omega)]
      rw [if_neg (by omega)] at hold
      omega
    · have hiff : d < s.next ↔ d < s.next + 1 := by omega
      rw [if_neg hd]
      simp only [← hiff]
      omega
  · show s.total = ((s.conns.length + s.lent.length +
      ((s.calls.set i (.counting s.next)).map Phase.counted).sum : Nat) : Int)
    have hold := h.total
    rw [hcalls, List.append_cons, sum_counted] at hold
    rw [hset, List.append_cons, sum_counted]
    exact hold
  · have hd : d ∈ s.conns ++ (s.calls.set i (.counting s.next)).flatMap Phase.ready := hd
    have hin : d ∈ s.conns ++ s.calls.flatMap Phase.ready := by
      rw [hset] at hd
      rw [hcalls]
      simp only [List.flatMap_append, List.flatMap_cons] at hd ⊢
      exact hd
    rw [hheap d (hwhere d ((List.mem_append.mp hin).imp_right fun hr => .inl (ready_subset _ hr)))]
    exact h.ready d hin
  · have hd : .counting d ∈ s.calls.set i (.counting s.next) := hd
    by_cases hdn : d = s.next
    · rw [hdn]
      show (Function.update s.heap s.next _ s.next).lentTimes = 0 ∧
        (Function.update s.heap s.next _ s.next).request = 0
      rw [Function.update_self]
      exact ⟨rfl, rfl⟩
    · have hin : .counting d ∈ s.calls := by
        rw [hset] at hd
        rw [hcalls]
        simp only [List.mem_append, List.mem_cons, Phase.counting.injEq] at hd ⊢
        tauto
      rw [hheap d (hwhere d (.inr (.inl (List.mem_flatMap.mpr
        ⟨_, hin, List.mem_singleton_self d⟩))))]
      exact h.fresh d hin
  · rw [hheap d (hwhere d (.inr (.inr hd)))]
    exact h.lent d hd
  · show (Function.update s.heap s.next _ d).lentTimes ≤ cfg.maxRequest
    by_cases hdn : d = s.next
    · rw [hdn, Function.update_self]
      exact Nat.zero_le _
    · rw [Function.update_of_ne hdn]
      exact h.uses hmax d

end Step

/-- A lent connection is nowhere else. -/
theorem lent_elsewhere (h : PoolInv cfg s) {c : Nat} (hc : c ∈ s.lent) :
    c ∉ s.conns ∧ c ∉ s.calls.flatMap Phase.holds ∧ c ∉ s.lent.erase c := by
  have honce := h.once c
  have hpos := List.count_pos_iff.mpr hc
  have hle : (if c < s.next then 1 else 0) ≤ 1 := by split <;> omega
  rw [s.count_everywhere] at honce
  rw [← List.count_eq_zero, ← List.count_eq_zero, ← List.count_eq_zero, List.count_erase_self]
  omega

/-- A connection goes from its user to a call that holds it alone. -/
theorem takeBack (h : PoolInv cfg s) {c : Nat} (hc : c ∈ s.lent) {phase : Phase}
    (hholds : phase.holds = [c]) (hcounted : phase.counted = 1)
    (hready : ∀ d ∈ phase.ready, (s.heap c).request + 1 < cfg.maxRequest)
    (hfresh : ∀ d, phase ≠ .counting d) (events : List Event) :
    PoolInv cfg { s with
      lent := s.lent.erase c
      heap := Function.update s.heap c { s.heap c with request := (s.heap c).request + 1 }
      calls := s.calls ++ [phase]
      events } := by
  obtain ⟨hconns, hcalls, hlent⟩ := h.lent_elsewhere hc
  have hpos := List.length_pos_of_mem hc
  have hlen := List.length_erase_of_mem hc
  have hother : ∀ d, d ≠ c → Function.update s.heap c
      { s.heap c with request := (s.heap c).request + 1 } d = s.heap d :=
    fun d hd => Function.update_of_ne hd _ _
  refine ⟨fun d => ?_, ?_, fun d hd => ?_, fun d hd => ?_, fun d hd => ?_, fun hmax d => ?_⟩
  · show _ = if d < s.next then 1 else 0
    rw [← h.once d, PoolState.count_everywhere, PoolState.count_everywhere]
    show s.conns.count d + ((s.calls ++ [phase]).flatMap Phase.holds).count d +
      (s.lent.erase c).count d + s.deleted.count d = _
    rw [List.flatMap_append, List.count_append]
    simp only [List.flatMap_cons, List.flatMap_nil, List.append_nil, hholds, List.count_singleton,
      beq_iff_eq]
    -- the connection has gone from the lent ones to those that a call holds
    by_cases hdc : c = d
    · have hcount := List.count_pos_iff.mpr hc
      rw [if_pos hdc, ← hdc, List.count_erase_self]
      omega
    · rw [if_neg hdc, List.count_erase_of_ne (Ne.symm hdc)]
      omega
  · show s.total = ((s.conns.length + (s.lent.erase c).length +
      ((s.calls ++ [phase]).map Phase.counted).sum : Nat) : Int)
    rw [h.total, List.map_append, List.sum_append]
    simp only [List.map_cons, List.map_nil, List.sum_cons, List.sum_nil, hcounted]
    omega
  · have hd : d ∈ s.conns ++ (s.calls ++ [phase]).flatMap Phase.ready := hd
    show (Function.update s.heap c _ d).lentTimes = (Function.update s.heap c _ d).request ∧
      (Function.update s.heap c _ d).request < cfg.maxRequest
    by_cases hdc : d = c
    · rw [hdc, Function.update_self]
      have hin : d ∈ phase.ready := by
        simp only [List.flatMap_append, List.mem_append, List.flatMap_cons, List.flatMap_nil,
          List.append_nil] at hd
        rcases hd with hd | hd | hd
        · exact absurd (hdc ▸ hd) hconns
        · exact absurd (hdc ▸ ready_subset _ hd) hcalls
        · exact hd
      exact ⟨(h.lent c hc).1, hready d hin⟩
    · rw [hother d hdc]
      refine h.ready d ?_
      simp only [List.flatMap_append, List.mem_append, List.flatMap_cons, List.flatMap_nil,
        List.append_nil] at hd ⊢
      rcases hd with hd | hd | hd
      · exact .inl hd
      · exact .inr hd
      · have hheld := phase.ready_subset hd
        rw [hholds, List.mem_singleton] at hheld
        exact absurd hheld hdc
  -- a connection that is just made is not the one that comes back
  · have hmem : .counting d ∈ s.calls := by
      have hd : .counting d ∈ s.calls ++ [phase] := hd
      rw [List.mem_append, List.mem_singleton] at hd
      exact hd.resolve_right fun heq => hfresh d heq.symm
    have hdc : d ≠ c := by
      rintro rfl
      exact hcalls (List.mem_flatMap.mpr ⟨_, hmem, List.mem_singleton_self d⟩)
    show (Function.update s.heap c _ d).lentTimes = 0 ∧ (Function.update s.heap c _ d).request = 0
    rw [hother d hdc]
    exact h.fresh d hmem
  · have hdc : d ≠ c := by
      rintro rfl
      exact hlent hd
    show (Function.update s.heap c _ d).lentTimes = (Function.update s.heap c _ d).request + 1 ∧
      (_ → (Function.update s.heap c _ d).request < cfg.maxRequest)
    rw [hother d hdc]
    exact h.lent d (List.mem_of_mem_erase hd)
  · show (Function.update s.heap c _ d).lentTimes ≤ cfg.maxRequest
    by_cases hdc : d = c
    · rw [hdc, Function.update_self]
      exact h.uses hmax c
    · rw [hother d hdc]
      exact h.uses hmax d

/-- `ReleasePtr` up to its test. -/
theorem release (h : PoolInv cfg s) {c : Nat} (hc : c ∈ s.lent) :
    PoolInv cfg (s.releasePtr cfg c) := by
  unfold PoolState.releasePtr
  dsimp only
  split
  · exact h.takeBack hc rfl rfl (by simp [Phase.ready]) (by simp) _
  · rename_i hkeep
    refine h.takeBack hc rfl rfl (fun d _ => ?_) (by simp) _
    simp only [discards, Bool.or_eq_true, not_or, decide_eq_true_eq, Nat.not_le] at hkeep
    exact hkeep.2

/-- The lock section sorts the idle connections, up to the first that can be used, and takes none
from the pool. -/
theorem lockSection (h : PoolInv cfg s) {i now : Nat} {pre post : List Phase}
    (hcalls : s.calls = pre ++ .locking now :: post)
    (hset : ∀ y, s.calls.set i y = pre ++ y :: post) : PoolInv cfg (s.lockSection cfg i now) := by
  have hsplit := popIdle_append cfg s.heap now s.conns
  unfold PoolState.lockSection
  generalize popIdle cfg s.heap now s.conns = r at hsplit ⊢
  obtain ⟨invalid, ptr, rest⟩ := r
  dsimp only at hsplit ⊢
  rw [hset, List.append_cons]
  refine h.shift hcalls (fun d => ?_) ?_ (fun d hd => ?_) (by simp)
  · have hcount := congrArg (List.count d) hsplit
    simp only [List.count_append] at hcount
    simp only [List.flatMap_cons, List.flatMap_nil, List.append_nil, Phase.holds,
      List.count_append, List.count_nil]
    omega
  · have hlen := congrArg List.length hsplit
    simp only [List.length_append] at hlen
    simp only [List.map_cons, List.map_nil, List.sum_cons, List.sum_nil, Phase.counted]
    omega
  · rw [← hsplit]
    simp only [List.flatMap_cons, List.flatMap_nil, List.append_nil, Phase.ready,
      List.mem_append] at hd ⊢
    tauto

/-- The next step of a call. -/
theorem advance (h : PoolInv cfg s) {i : Nat} {phase : Phase} (hi : s.calls[i]? = some phase)
    (ok : Bool) : PoolInv cfg (s.advance cfg i ok phase) := by
  obtain ⟨pre, post, hcalls, hset, herase⟩ := split_at hi
  cases phase with
  | locking now =>
      exact h.lockSection hcalls hset
  | sweeping left n ptr =>
      cases left with
      | cons c left =>
          show PoolInv cfg { s with
            deleted := c :: s.deleted, calls := s.calls.set i (.sweeping left n ptr) }
          rw [hset, List.append_cons]
          refine h.shift hcalls (fun d => ?_) ?_ (fun d hd => ?_) (by simp)
          · simp only [List.flatMap_cons, List.flatMap_nil, List.append_nil, Phase.holds,
              List.count_append, List.cons_append, List.count_cons]
            omega
          · simp [Phase.counted]
          · simpa [Phase.ready] using hd
      | nil =>
          cases ptr with
          | none =>
              show PoolInv cfg { s with
                total := s.total - n, calls := s.calls.set i .connecting }
              rw [hset, List.append_cons]
              refine h.shift hcalls (fun d => ?_) ?_ (fun d hd => ?_) (by simp)
              · simp [Phase.holds]
              · simp only [List.map_cons, List.map_nil, List.sum_cons, List.sum_nil,
                  Phase.counted, Option.toList_none, List.length_nil]
                omega
              · simpa [Phase.ready] using hd
          | some c =>
              -- a reused connection comes with what is known of the idle ones
              refine h.handOut hcalls herase rfl ?_ ?_
              · have hready := h.ready c (by simp [hcalls, Phase.ready])
                exact ⟨hready.1, fun _ => hready.2⟩
              · simp only [Phase.counted, Option.toList_some, List.length_singleton]
                omega
  | connecting =>
      cases ok with
      | true => exact h.make hcalls hset
      | false =>
          show PoolInv cfg { s with calls := s.calls.eraseIdx i }
          rw [herase, ← List.append_nil pre]
          refine h.shift hcalls (fun d => ?_) ?_ (fun d hd => ?_) (by simp)
          · simp [Phase.holds]
          · simp [Phase.counted]
          · simpa [Phase.ready] using hd
  | counting c =>
      refine h.handOut hcalls herase rfl ?_ ?_
      · obtain ⟨hlent, hreq⟩ := h.fresh c (by simp [hcalls])
        exact ⟨hlent.trans hreq.symm, fun hmax => hreq ▸ hmax⟩
      · simp [Phase.counted]
  | discarding c =>
      show PoolInv cfg { s with
        deleted := c :: s.deleted, calls := s.calls.set i .uncounting }
      rw [hset, List.append_cons]
      refine h.shift hcalls (fun d => ?_) ?_ (fun d hd => ?_) (by simp)
      · simp only [List.flatMap_cons, List.flatMap_nil, List.append_nil, Phase.holds,
          List.count_cons, List.count_nil]
        omega
      · simp [Phase.counted]
      · simpa [Phase.ready] using hd
  | uncounting =>
      show PoolInv cfg { s with total := s.total - 1, calls := s.calls.eraseIdx i }
      rw [herase, ← List.append_nil pre]
      refine h.shift hcalls (fun d => ?_) ?_ (fun d hd => ?_) (by simp)
      · simp [Phase.holds]
      · simp only [Phase.counted, List.map_nil, List.sum_nil]
        omega
      · simpa [Phase.ready] using hd
  | returning c =>
      show PoolInv cfg { s with
        conns := s.conns ++ [c], calls := s.calls.eraseIdx i }
      rw [herase, ← List.append_nil pre]
      refine h.shift hcalls (fun d => ?_) ?_ (fun d hd => ?_) (by simp)
      · simp [Phase.holds, List.count_append]
      · simp only [Phase.counted, List.length_append, List.length_singleton, List.map_nil,
          List.sum_nil]
        omega
      · simpa [Phase.ready] using hd

end PoolInv

theorem pool_inductive (cfg : Config) :
    (poolSys cfg).Inductive (fun _ _ => True) (PoolInv cfg) where
  init := by
    rintro s rfl
    exact .start cfg
  step := by
    intro s a s' h _ hs
    cases a with
    | clock t =>
        cases hs
        exact h.of_heap t fun _ => ⟨rfl, rfl⟩
    | disconnect c =>
        cases hs
        refine h.of_heap s.clock fun d => ?_
        by_cases hd : d = c
        · rw [hd, Function.update_self]
          exact ⟨rfl, rfl⟩
        · rw [Function.update_of_ne hd]
          exact ⟨rfl, rfl⟩
    | getConnection =>
        cases hs
        exact h.add_call s.clock
    | release c =>
        obtain ⟨hc, rfl⟩ := when_eq_some.mp hs
        exact h.release hc
    | step i ok =>
        simp only [poolSys, poolStep, Option.map_eq_some_iff] at hs
        obtain ⟨phase, hi, rfl⟩ := hs
        exact h.advance hi ok

/-- In every interleaving, with any clock, peers and connects: every connection is at each moment
in one place, with a call that is between its steps or idle, lent or deleted; `m_total` is the
number of idle and lent ones whenever no call is between its steps; and none is lent more than
`m_maxRequest` times, if that is at least 1. -/
theorem pool_accounted (cfg : Config) {s : PoolState} (h : (poolSys cfg).Reachable s) :
    Accounted cfg s :=
  ((pool_inductive cfg).invariant h).accounted

/-- A connection is made, released and taken again while the clock is far beyond
`m_maxAliveTime`. -/
def reuseTrace : List PoolAct :=
  [.clock 1000, .getConnection, .step 0 true, .step 0 true, .step 0 true, .step 0 true,
    .release 0, .step 0 true, .getConnection, .step 0 true, .step 0 true]

theorem pool_accounted_reuse : ∃ s, (poolSys ⟨10, 2⟩).Reachable s ∧ s.calls = [] ∧ s.lent = [0] ∧
    (s.heap 0).lentTimes = 2 ∧ Accounted ⟨10, 2⟩ s := by
  have hrun : ∃ s, (poolSys ⟨10, 2⟩).Reachable s ∧
      decide (s.calls = [] ∧ s.lent = [0] ∧ (s.heap 0).lentTimes = 2) = true :=
    TSys.exists_reachable (l := reuseTrace) rfl (by decide)
  obtain ⟨s, hs, htest⟩ := hrun
  obtain ⟨hcalls, hlent, htimes⟩ := of_decide_eq_true htest
  exact ⟨s, hs, hcalls, hlent, htimes, pool_accounted ⟨10, 2⟩ hs⟩

end Gxh.Http.ConnectionPool
