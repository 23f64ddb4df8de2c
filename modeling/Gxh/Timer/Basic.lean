import Gxh.Lib.OrdSet
import Gxh.Lib.Word
import Mathlib.Logic.Function.Basic

/-!
# Timers and the timer manager

`Timer` and `TimerManager` (`timer.h`, `timer.cc`). The timers a manager has handed
out are a heap from addresses to `Timer` objects; `m_timers`, a `std::set` of
pointers ordered by deadline and then address, is the list of its addresses in
iteration order. Each function below is the part of the source function that runs
under the manager's write lock (`getNextTimer`: read lock), with the clock reading
it uses as an argument.

The comparator's branches on null pointers are left out: every pointer in the set
comes from `shared_from_this()` or a fresh allocation.
-/

namespace Gxh

/-- `Timer`, with callbacks in `κ`; an empty `m_cb` is `none`. -/
structure Timer (κ : Type) where
  recurring : Bool
  ms : Nat
  next : Nat
  cb : Option κ
  deriving DecidableEq, Repr

/-- `Timer::Timer(ms, cb, recurring, manager)` at clock reading `now`. -/
def Timer.new {κ : Type} (now ms : Nat) (cb : Option κ) (recurring : Bool) : Timer κ :=
  { recurring, ms, next := wrap64 (now + ms), cb }

/-- `TimerManager`, with the timer objects its pointers refer to. -/
structure TimerManager (κ : Type) where
  heap : Nat → Option (Timer κ)
  timers : List Nat
  tickled : Bool
  previouseTime : Nat

namespace TimerManager

variable {κ : Type}

/-- `TimerManager::TimerManager` at clock reading `now`. -/
def new (now : Nat) : TimerManager κ :=
  { heap := fun _ => none, timers := [], tickled := false, previouseTime := now }

/-- `m_next` of the timer at address `a`. -/
def next (tm : TimerManager κ) (a : Nat) : Nat := ((tm.heap a).map Timer.next).getD 0

/-- The lexicographic test of `Timer::Comparator`. -/
def comparator (next : Nat → Nat) (a b : Nat) : Bool :=
  if next a < next b then true
  else if next b < next a then false
  else decide (a < b)

/-- `Timer::Comparator` on the timers of the heap. -/
def lt (tm : TimerManager κ) : Nat → Nat → Bool := comparator tm.next

/-- Write one timer object. -/
def store (tm : TimerManager κ) (a : Nat) (t : Timer κ) : TimerManager κ :=
  { tm with heap := Function.update tm.heap a (some t) }

/-- `m_timers.insert(a)`. -/
def insert (tm : TimerManager κ) (a : Nat) : TimerManager κ :=
  { tm with timers := OrdSet.insert tm.lt a tm.timers }

/-- `m_timers.find(a)`, as a test against `m_timers.end()`. -/
def found (tm : TimerManager κ) (a : Nat) : Bool := (OrdSet.find tm.lt a tm.timers).isSome

/-- `m_timers.erase(it)` for the iterator found at `a`. -/
def erase (tm : TimerManager κ) (a : Nat) : TimerManager κ :=
  { tm with timers := tm.timers.erase a }

/-- `Timer::cancel`. -/
def cancel (tm : TimerManager κ) (a : Nat) : TimerManager κ × Bool :=
  match tm.heap a with
  | none => (tm, false)
  | some t =>
      if t.cb.isSome then ((tm.store a { t with cb := none }).erase a, true)
      else (tm, false)

/-- `Timer::refresh`. -/
def refresh (tm : TimerManager κ) (a now : Nat) : TimerManager κ × Bool :=
  match tm.heap a with
  | none => (tm, false)
  | some t =>
      if t.cb.isSome && tm.found a then
        (((tm.erase a).store a { t with next := wrap64 (now + t.ms) }).insert a, true)
      else (tm, false)

/-- `TimerManager::addTimer(val, lock)` up to the release of the lock: insert, and
report whether the caller must run `onTimerInsertedAtFront`. -/
def addTimer (tm : TimerManager κ) (a : Nat) (t : Timer κ) : TimerManager κ × Bool :=
  let tm' := (tm.store a t).insert a
  let atFront := tm'.timers.head? == some a && !tm.tickled
  ({ tm' with tickled := tm.tickled || atFront }, atFront)

/-- The start of the interval `Timer::reset` counts `ms` from. -/
def resetStart (t : Timer κ) (now : Nat) (fromNow : Bool) : Nat :=
  if fromNow then now else sub64 t.next t.ms

/-- `Timer::reset` under the lock: the answer, and whether `onTimerInsertedAtFront`
must run. Before it takes the lock the source returns `true` at once when `ms` is
the timer's interval already and `from_now` is false; that return changes nothing. -/
def reset (tm : TimerManager κ) (a ms : Nat) (fromNow : Bool) (now : Nat) :
    TimerManager κ × Bool × Bool :=
  match tm.heap a with
  | none => (tm, false, false)
  | some t =>
      if t.cb.isSome && tm.found a then
        let r := (tm.erase a).addTimer a
          { t with ms, next := wrap64 (resetStart t now fromNow + ms) }
        (r.1, true, r.2)
      else (tm, false, false)

/-- `TimerManager::getNextTimer`. -/
def getNextTimer (tm : TimerManager κ) (now : Nat) : TimerManager κ × Nat :=
  ({ tm with tickled := false },
    match tm.timers with
    | [] => max64
    | a :: _ => if now ≥ tm.next a then 0 else tm.next a - now)

/-- The test of `TimerManager::detectClockRollover`. -/
def rollover (tm : TimerManager κ) (now : Nat) : Bool :=
  decide (now < tm.previouseTime) && decide (now < sub64 tm.previouseTime (60 * 60 * 1000))

/-- The timers `listExpiredCb` takes out of the set: everything before
`lower_bound(now_timer)`, for `now_timer` allocated at address `addr`, and the run
of timers due exactly at `now` after it; the whole set on a rollover. -/
def expired (tm : TimerManager κ) (now addr : Nat) : List Nat :=
  if tm.rollover now then tm.timers
  else
    let lower := OrdSet.below (comparator (Function.update tm.next addr now)) addr tm.timers
    lower ++ (tm.timers.drop lower.length).takeWhile fun a => tm.next a == now

/-- The loop of `listExpiredCb` over the expired timers: collect the callback, and
re-arm or retire the timer. -/
def rearm (now : Nat) : List Nat → TimerManager κ → TimerManager κ × List (Option κ)
  | [], tm => (tm, [])
  | a :: rest, tm =>
      match tm.heap a with
      | none => rearm now rest tm
      | some t =>
          let tm' :=
            if t.recurring then (tm.store a { t with next := wrap64 (now + t.ms) }).insert a
            else tm.store a { t with cb := none }
          let r := rearm now rest tm'
          (r.1, t.cb :: r.2)

/-- `TimerManager::listExpiredCb` under the write lock. -/
def listExpiredCb (tm : TimerManager κ) (now addr : Nat) : TimerManager κ × List (Option κ) :=
  match tm.timers with
  | [] => (tm, [])
  | front :: _ =>
      let tm1 := { tm with previouseTime := now }
      if !tm.rollover now && decide (tm.next front > now) then (tm1, [])
      else
        let gone := tm.expired now addr
        rearm now gone { tm1 with timers := tm.timers.drop gone.length }

end TimerManager

end Gxh
