import Gxh.Timer.Membership

/-!
# What `cancel`, `refresh` and `reset` answer

`Timer::reset` has a way out before it takes the lock: with the interval the timer has already,
counted from its old start, it answers true without a look at the set. `callSys` are the runs with
that return, and `answers_true_iff` says when an answer is right: always, but for this return on a
timer that is not pending.
-/

namespace Gxh

variable {κ : Type}

/-- A call on a timer object, with its clock reading. -/
inductive TimerCall
  | cancel
  | refresh (now : Nat)
  | reset (ms : Nat) (fromNow : Bool) (now : Nat)
  deriving DecidableEq, Repr

/-- The call returns before it takes the lock. -/
def TimerCall.unlocked (t : Timer κ) : TimerCall → Bool
  | .reset ms fromNow _ => ms = t.ms && !fromNow
  | _ => false

/-- The deadline after the call. -/
def TimerCall.deadline (t : Timer κ) : TimerCall → Option Nat
  | .cancel => none
  | .refresh now => some (wrap64 (now + t.ms))
  | .reset ms fromNow now => some (wrap64 (TimerManager.resetStart t now fromNow + ms))

namespace TimerManager

variable {tm : TimerManager κ} {a now ms : Nat} {fromNow : Bool} {t : Timer κ}

/-- `Timer::reset`. -/
def resetCall (tm : TimerManager κ) (a ms : Nat) (fromNow : Bool) (now : Nat) :
    TimerManager κ × Bool × Bool :=
  match tm.heap a with
  | none => (tm, false, false)
  | some t =>
      -- the return before the lock
      if ms = t.ms ∧ fromNow = false then (tm, true, false)
      else tm.reset a ms fromNow now

/-- The call, with its answer. -/
def call (tm : TimerManager κ) (a : Nat) : TimerCall → TimerManager κ × Bool
  | .cancel => tm.cancel a
  | .refresh now => tm.refresh a now
  | .reset ms fromNow now =>
      let r := tm.resetCall a ms fromNow now
      (r.1, r.2.1)

/-- The answer is whether the timer is pending; after a true one it is pending with the new
deadline, or not pending any more. -/
structure TellsTruth (tm : TimerManager κ) (a : Nat) (t : Timer κ) (c : TimerCall) : Prop where
  answer : (tm.call a c).2 = true ↔ a ∈ tm.timers
  pending : (tm.call a c).2 = true → ∀ next, c.deadline t = some next →
    a ∈ (tm.call a c).1.timers ∧ (tm.call a c).1.next a = next
  cancelled : (tm.call a c).2 = true → c.deadline t = none → a ∉ (tm.call a c).1.timers

/-! ## Intervals and deadlines are words -/

/-- Every timer has a `uint64_t` for its interval and for its deadline. -/
def Words (tm : TimerManager κ) : Prop :=
  ∀ a t, tm.heap a = some t → t.ms < size64 ∧ t.next < size64

theorem wrap64_lt (n : Nat) : wrap64 n < size64 := Nat.mod_lt n (by decide)

theorem Words.store (h : tm.Words) (ht : t.ms < size64 ∧ t.next < size64) :
    (tm.store a t).Words := by
  intro b x hx
  rw [store_heap] at hx
  split at hx
  · cases hx
    exact ht
  · exact h b x hx

theorem Words.cancel (h : tm.Words) (a : Nat) : (tm.cancel a).1.Words := by
  unfold TimerManager.cancel
  split
  · exact h
  · rename_i t ht
    split
    · exact h.store (h a t ht)
    · exact h

theorem Words.refresh (h : tm.Words) (a now : Nat) : (tm.refresh a now).1.Words := by
  unfold TimerManager.refresh
  split
  · exact h
  · rename_i t ht
    split
    · have herase : (tm.erase a).Words := h
      exact herase.store ⟨(h a t ht).1, wrap64_lt _⟩
    · exact h

theorem Words.resetCall (h : tm.Words) (a : Nat) (hms : ms < size64) (fromNow : Bool)
    (now : Nat) : (tm.resetCall a ms fromNow now).1.Words := by
  unfold TimerManager.resetCall
  split
  · exact h
  · split
    · exact h
    · unfold TimerManager.reset
      split
      · exact h
      · split
        · have herase : (tm.erase a).Words := h
          exact herase.store ⟨hms, wrap64_lt _⟩
        · exact h

theorem Words.listExpiredCb (h : tm.Words) (hwf : tm.WF) (now addr : Nat) :
    (tm.listExpiredCb now addr).1.Words := by
  intro a t ht
  rw [hwf.listExpiredCb_heap] at ht
  split at ht
  · obtain ⟨x, hx, rfl⟩ := Option.map_eq_some_iff.mp ht
    have hx := h a x hx
    unfold afterExpiry
    split
    · exact ⟨hx.1, wrap64_lt _⟩
    · exact hx
  · exact h a t ht

/-! ## The answers -/

theorem TimerSet.cancel_tells (h : tm.TimerSet) (ht : tm.heap a = some t) :
    tm.TellsTruth a t .cancel := by
  have hmem := h.member a t ht
  have hcall : tm.call a .cancel =
      if t.cb.isSome then ((tm.store a { t with cb := none }).erase a, true) else (tm, false) := by
    simp only [call, TimerManager.cancel, ht]
  -- `cancel` looks at the callback alone, which a timer has exactly while it is in the set
  refine ⟨?_, ?_, ?_⟩
  · rw [hcall, hmem]
    split
    · rename_i hcb
      exact ⟨fun _ => hcb, fun _ => rfl⟩
    · rename_i hcb
      exact iff_of_false Bool.false_ne_true hcb
  · intro _ next hnext
    cases hnext
  · intro htrue _
    rw [hcall] at htrue ⊢
    split at htrue
    · rename_i hcb
      rw [if_pos hcb]
      show a ∉ tm.timers.erase a
      rw [h.once.mem_erase_iff]
      exact fun hin => hin.1 rfl
    · cases htrue

/-- A timer that is taken out, written and put back. -/
theorem moved (tm : TimerManager κ) (a : Nat) (t : Timer κ) :
    a ∈ (((tm.erase a).store a t).insert a).timers ∧
      (((tm.erase a).store a t).insert a).next a = t.next := by
  refine ⟨mem_insert.mpr (.inl rfl), ?_⟩
  rw [insert_next, store_next, if_pos rfl]

/-- The test both `refresh` and `reset` make under the lock. -/
theorem TimerSet.test_iff (h : tm.TimerSet) (ht : tm.heap a = some t) :
    (t.cb.isSome && tm.found a) = true ↔ a ∈ tm.timers := by
  rw [Bool.and_eq_true, h.wf.found_iff, ← h.member a t ht]
  exact and_self_iff

/-- A call that is that test and, if it passes, a move to a new deadline. -/
theorem TimerSet.tells_of_test (h : tm.TimerSet) (ht : tm.heap a = some t) {c : TimerCall}
    {tm' : TimerManager κ} {next : Nat} (hdeadline : c.deadline t = some next)
    (hcall : tm.call a c = if t.cb.isSome && tm.found a then (tm', true) else (tm, false))
    (hmoved : a ∈ tm'.timers ∧ tm'.next a = next) : tm.TellsTruth a t c := by
  have htest := h.test_iff ht
  by_cases hmem : a ∈ tm.timers
  · rw [if_pos (htest.mpr hmem)] at hcall
    constructor
    · rw [hcall]
      exact ⟨fun _ => hmem, fun _ => rfl⟩
    · intro _ next' hnext'
      rw [hdeadline] at hnext'
      cases hnext'
      rw [hcall]
      exact hmoved
    · intro _ hnone
      rw [hdeadline] at hnone
      cases hnone
  · -- nothing is promised of a call that answers false
    rw [if_neg (mt htest.mp hmem)] at hcall
    constructor
    · rw [hcall]
      exact ⟨nofun, fun hin => absurd hin hmem⟩
    · rw [hcall]
      exact nofun
    · rw [hcall]
      exact nofun

theorem TimerSet.refresh_tells (h : tm.TimerSet) (ht : tm.heap a = some t) (now : Nat) :
    tm.TellsTruth a t (.refresh now) := by
  have hcall : tm.call a (.refresh now) = if t.cb.isSome && tm.found a then
      (((tm.erase a).store a { t with next := wrap64 (now + t.ms) }).insert a, true)
      else (tm, false) := by
    simp only [call, TimerManager.refresh, ht]
  exact h.tells_of_test ht rfl hcall (moved tm a { t with next := wrap64 (now + t.ms) })

theorem TimerSet.reset_tells (h : tm.TimerSet) (ht : tm.heap a = some t)
    (hlock : (TimerCall.reset ms fromNow now).unlocked t = false) :
    tm.TellsTruth a t (.reset ms fromNow now) := by
  have hslow : ¬(ms = t.ms ∧ fromNow = false) := by
    simpa [TimerCall.unlocked] using hlock
  have hcall : tm.call a (.reset ms fromNow now) = if t.cb.isSome && tm.found a then
      (((tm.erase a).addTimer a
        { t with ms, next := wrap64 (resetStart t now fromNow + ms) }).1, true)
      else (tm, false) := by
    simp only [call, resetCall, ht, if_neg hslow, TimerManager.reset]
    split
    · rfl
    · rfl
  exact h.tells_of_test ht rfl hcall
    (moved tm a { t with ms, next := wrap64 (resetStart t now fromNow + ms) })

/-- The return before the lock is right about a pending timer: its deadline is the one it has. -/
theorem Words.unlocked_tells_iff (h : tm.Words) (ht : tm.heap a = some t)
    (hlock : (TimerCall.reset ms fromNow now).unlocked t = true) :
    tm.TellsTruth a t (.reset ms fromNow now) ↔ a ∈ tm.timers := by
  obtain ⟨rfl, rfl⟩ : ms = t.ms ∧ fromNow = false := by
    simpa [TimerCall.unlocked] using hlock
  have hreset : tm.resetCall a t.ms false now = (tm, true, false) := by
    simp only [TimerManager.resetCall, ht, and_self, if_true]
  have hcall : tm.call a (.reset t.ms false now) = (tm, true) := by
    simp only [call, hreset]
  constructor
  · intro htruth
    rw [← htruth.answer, hcall]
  · intro hmem
    refine ⟨?_, ?_, nofun⟩
    · rw [hcall]
      exact ⟨fun _ => hmem, fun _ => rfl⟩
    · rintro - next hnext
      cases hnext
      obtain ⟨hms, hnext⟩ := h a t ht
      -- the old start and the same interval give the old deadline, whether or not the sum wraps
      have hsame : wrap64 (sub64 t.next t.ms + t.ms) = t.next := by
        unfold sub64 wrap64 at *
        unfold size64 at *
        omega
      rw [hcall]
      refine ⟨hmem, ?_⟩
      show ((tm.heap a).map Timer.next).getD 0 = wrap64 (sub64 t.next t.ms + t.ms)
      rw [hsame, ht]
      rfl

end TimerManager

open TimerManager

/-! ## Runs -/

/-- One locked section, or the whole of a `reset`. -/
def callStep (s : Delivery κ) : TimerOp κ → Option (Delivery κ)
  | .reset a ms fromNow now => some { s with tm := (s.tm.resetCall a ms fromNow now).1 }
  | op => timerStep s op

/-- Any order of the calls on one manager and its timers. -/
def callSys (κ : Type) : TSys (Delivery κ) (TimerOp κ) where
  init s := ∃ now, s = .start now
  step := callStep

/-- Callbacks are not empty, and the intervals are `uint64_t`. -/
def Proper (_ : Delivery κ) : TimerOp κ → Prop
  | .addTimer _ _ ms cb _ => cb.isSome = true ∧ ms < size64
  | .reset _ ms _ _ => ms < size64
  | _ => True

/-- The set and the words in it. -/
structure Truthful (s : Delivery κ) : Prop where
  set : s.tm.TimerSet
  words : s.tm.Words

theorem Truthful.step {s s' : Delivery κ} {op : TimerOp κ} (h : Truthful s) (hop : Proper s op)
    (hs : callStep s op = some s') : Truthful s' := by
  cases op with
  | addTimer a created ms cb recurring =>
      have hcb : HasCallback s (.addTimer a created ms cb recurring) := hop.1
      have hset : s'.tm.TimerSet := h.set.step hcb hs
      simp only [callStep, timerStep] at hs
      split at hs
      · cases hs
        exact ⟨hset, h.words.store ⟨hop.2, wrap64_lt _⟩⟩
      · cases hs
  | cancel a =>
      have hcb : HasCallback s (.cancel a) := trivial
      have hset : s'.tm.TimerSet := h.set.step hcb hs
      cases hs
      exact ⟨hset, h.words.cancel a⟩
  | refresh a now =>
      cases hs
      exact ⟨h.set.refresh a now, h.words.refresh a now⟩
  | reset a ms fromNow now =>
      cases hs
      -- the set is that of a `reset` under the lock, or has not been touched
      refine ⟨?_, h.words.resetCall a hop fromNow now⟩
      show (s.tm.resetCall a ms fromNow now).1.TimerSet
      unfold resetCall
      split
      · exact h.set
      · split
        · exact h.set
        · exact h.set.reset a ms fromNow now
  | listExpiredCb now addr =>
      simp only [callStep, timerStep] at hs
      split at hs
      · cases hs
        exact ⟨h.set.listExpiredCb now addr, h.words.listExpiredCb h.set.wf now addr⟩
      · cases hs
  | getNextTimer now =>
      cases hs
      exact ⟨h.set.flags _ _, h.words⟩

theorem truthful_inductive : (callSys κ).Inductive Proper Truthful where
  init := by
    rintro s ⟨now, rfl⟩
    refine ⟨timerSet_inductive.init _ ⟨now, rfl⟩, ?_⟩
    intro a t ht
    cases ht
  step := fun _ _ _ h hop hs => h.step hop hs

/-- Every answer is right, but for a `reset` to the same interval from the old start when the
timer is not pending. -/
theorem answers_true_iff {s : Delivery κ} (h : (callSys κ).Reaches Proper s) {a : Nat}
    {t : Timer κ} (ht : s.tm.heap a = some t) (c : TimerCall) :
    s.tm.TellsTruth a t c ↔ (c.unlocked t = true → a ∈ s.tm.timers) := by
  obtain ⟨hset, hwords⟩ := truthful_inductive.invariant h
  cases c with
  | cancel => exact iff_of_true (hset.cancel_tells ht) nofun
  | refresh now => exact iff_of_true (hset.refresh_tells ht now) nofun
  | reset ms fromNow now =>
      cases hlock : (TimerCall.reset ms fromNow now).unlocked t with
      | false => exact iff_of_true (hset.reset_tells ht hlock) nofun
      | true =>
          rw [hwords.unlocked_tells_iff ht hlock]
          exact ⟨fun hmem _ => hmem, fun hmem => hmem rfl⟩

def properTest (_ : Delivery κ) : TimerOp κ → Bool
  | .addTimer _ _ ms cb _ => cb.isSome && decide (ms < size64)
  | .reset _ ms _ _ => decide (ms < size64)
  | _ => true

theorem proper_of_test (s : Delivery κ) (op : TimerOp κ) (h : properTest s op = true) :
    Proper s op := by
  cases op with
  | addTimer a created ms cb recurring =>
      rw [properTest, Bool.and_eq_true, decide_eq_true_iff] at h
      exact h
  | reset a ms fromNow now =>
      have hms : ms < size64 := of_decide_eq_true h
      exact hms
  | _ => trivial

/-- A timer of five milliseconds, pending. -/
theorem answers_true_pending : ∃ s : Delivery CbId,
    s.tm.heap 1 = some ⟨false, 5, 5, some 10⟩ ∧
    s.tm.TellsTruth 1 ⟨false, 5, 5, some 10⟩ (.reset 5 false 3) := by
  obtain ⟨s, hs, hp⟩ := TSys.exists_reaches (M := callSys CbId) (G := Proper) (s := .start 0)
    (l := [.addTimer 1 0 5 (some 10) false])
    (p := fun s => decide (s.tm.heap 1 = some ⟨false, 5, 5, some 10⟩ ∧ s.tm.timers = [1]))
    proper_of_test ⟨0, rfl⟩ (by decide)
  obtain ⟨ht, htimers⟩ := of_decide_eq_true hp
  refine ⟨s, ht, (answers_true_iff hs ht _).mpr fun _ => ?_⟩
  rw [htimers]
  exact List.mem_singleton.mpr rfl

/-- The timer has been cancelled, and `reset(5, false)` answers true. -/
theorem reset_of_cancelled : ∃ s : Delivery CbId, (callSys CbId).Reaches Proper s ∧
    s.tm.heap 1 = some ⟨false, 5, 5, none⟩ ∧ s.tm.timers = [] ∧
    (s.tm.call 1 (.reset 5 false 3)).2 = true ∧
    ¬s.tm.TellsTruth 1 ⟨false, 5, 5, none⟩ (.reset 5 false 3) := by
  obtain ⟨s, hs, hp⟩ := TSys.exists_reaches (M := callSys CbId) (G := Proper) (s := .start 0)
    (l := [.addTimer 1 0 5 (some 10) false, .cancel 1])
    (p := fun s => decide (s.tm.heap 1 = some ⟨false, 5, 5, none⟩ ∧ s.tm.timers = []))
    proper_of_test ⟨0, rfl⟩ (by decide)
  obtain ⟨ht, htimers⟩ := of_decide_eq_true hp
  have htrue : (s.tm.call 1 (.reset 5 false 3)).2 = true := by
    simp only [call, resetCall, ht]
    rfl
  refine ⟨s, hs, ht, htimers, htrue, ?_⟩
  intro htruth
  -- a true answer would have to mean that the timer is pending
  have hmem := htruth.answer.mp htrue
  rw [htimers] at hmem
  cases hmem

end Gxh
