import Gxh.Timer.Delivery

/-!
# Membership in the timer set

A locked section changes the set and the timers one write at a time: `Micro` is such a write,
`body` the writes of a section in the order of the source. `Micro.Safe` says what `std::set` asks
of each: the iterator given to `erase` is not `end()`, no deadline is written while its timer is
in the set, and an insertion adds its timer and drops none.

Between the sections a timer is in the set exactly when it has a callback (`TimerSet`), which is
what makes the unchecked `erase` of `cancel` safe.
-/

namespace Gxh

variable {κ : Type}

/-- One write of a locked section. -/
inductive Micro (κ : Type)
  | erase (a : Nat)
  | store (a : Nat) (t : Timer κ)
  | insert (a : Nat)

namespace TimerManager

variable {tm : TimerManager κ} {now addr a : Nat}

def apply (tm : TimerManager κ) : Micro κ → TimerManager κ
  | .erase a => tm.erase a
  | .store a t => tm.store a t
  | .insert a => tm.insert a

def applyAll (tm : TimerManager κ) (ms : List (Micro κ)) : TimerManager κ := ms.foldl apply tm

/-- The writes of the loop in `listExpiredCb`. -/
def rearmBody (now : Nat) : List Nat → TimerManager κ → List (Micro κ)
  | [], _ => []
  | a :: rest, tm =>
      match tm.heap a with
      | none => rearmBody now rest tm
      | some t =>
          let ms : List (Micro κ) :=
            if t.recurring then [.store a { t with next := wrap64 (now + t.ms) }, .insert a]
            else [.store a { t with cb := none }]
          ms ++ rearmBody now rest (tm.applyAll ms)

/-- The writes of a locked section, in the order of the source. -/
def body (tm : TimerManager κ) : TimerOp κ → List (Micro κ)
  | .addTimer a created ms cb recurring => [.store a (.new created ms cb recurring), .insert a]
  | .cancel a =>
      match tm.heap a with
      | none => []
      | some t => if t.cb.isSome then [.store a { t with cb := none }, .erase a] else []
  | .refresh a now =>
      match tm.heap a with
      | none => []
      | some t =>
          if t.cb.isSome && tm.found a then
            [.erase a, .store a { t with next := wrap64 (now + t.ms) }, .insert a]
          else []
  | .reset a ms fromNow now =>
      match tm.heap a with
      | none => []
      | some t =>
          if t.cb.isSome && tm.found a then
            [.erase a, .store a { t with ms, next := wrap64 (resetStart t now fromNow + ms) },
              .insert a]
          else []
  | .listExpiredCb now addr =>
      let gone := tm.returned now addr
      gone.map .erase ++ rearmBody now gone (tm.applyAll (gone.map .erase))
  | .getNextTimer _ => []

/-- What a write asks of the state it finds. -/
def Safe (tm : TimerManager κ) : Micro κ → Prop
  | .erase a => tm.found a = true
  | .store a t => a ∈ tm.timers → t.next = tm.next a
  | .insert a => a ∉ tm.timers ∧ (tm.insert a).timers.Perm (a :: tm.timers)

/-- Every write of a list finds what it asks for. -/
def SafeAll (tm : TimerManager κ) : List (Micro κ) → Prop
  | [] => True
  | m :: ms => tm.Safe m ∧ (tm.apply m).SafeAll ms

/-- The set between two locked sections. -/
structure TimerSet (tm : TimerManager κ) : Prop where
  sorted : OrdSet.Sorted tm.lt tm.timers
  once : tm.timers.Nodup
  live : ∀ a ∈ tm.timers, ∃ t, tm.heap a = some t
  member : ∀ a t, tm.heap a = some t → (a ∈ tm.timers ↔ t.cb.isSome = true)

theorem TimerSet.wf (h : tm.TimerSet) : tm.WF := ⟨h.sorted, h.live⟩

/-! ## Writes -/

theorem applyAll_append (tm : TimerManager κ) (ms ms' : List (Micro κ)) :
    tm.applyAll (ms ++ ms') = (tm.applyAll ms).applyAll ms' := List.foldl_append

theorem safeAll_append {ms ms' : List (Micro κ)} :
    tm.SafeAll (ms ++ ms') ↔ tm.SafeAll ms ∧ (tm.applyAll ms).SafeAll ms' := by
  induction ms generalizing tm with
  | nil => simp [SafeAll, applyAll]
  | cons m rest ih =>
      simp only [List.cons_append, SafeAll, ih, and_assoc]
      rfl

theorem safe_insert (ha : a ∉ tm.timers) : tm.Safe (.insert a) :=
  ⟨ha, OrdSet.insert_perm (lt_strict tm) ha⟩

/-- The writes do not look at `m_previouseTime`. -/
theorem applyAll_previous (tm : TimerManager κ) (previous : Nat) (ms : List (Micro κ)) :
    ({ tm with previouseTime := previous } : TimerManager κ).applyAll ms =
      { tm.applyAll ms with previouseTime := previous } := by
  induction ms generalizing tm with
  | nil => rfl
  | cons m rest ih =>
      have hone : ({ tm with previouseTime := previous } : TimerManager κ).apply m =
          { tm.apply m with previouseTime := previous } := by
        cases m <;> rfl
      show (TimerManager.apply _ m).applyAll rest = _
      rw [hone, ih]
      rfl

/-- Taking a pending timer out, rewriting it and putting it back. -/
theorem WF.safe_move (h : tm.WF) (ha : a ∈ tm.timers) (t : Timer κ) :
    tm.SafeAll [.erase a, .store a t, .insert a] := by
  have hout : a ∉ (tm.erase a).timers := fun hmem => (h.mem_erase.mp hmem).1 rfl
  refine ⟨h.found_iff.mpr ha, fun hmem => absurd hmem hout, ?_, trivial⟩
  exact safe_insert hout

/-! ## The loop of `listExpiredCb` -/

theorem rearm_eq_applyAll (now : Nat) (gone : List Nat) (tm : TimerManager κ) :
    (rearm now gone tm).1 = tm.applyAll (rearmBody now gone tm) := by
  induction gone generalizing tm with
  | nil => rfl
  | cons a rest ih =>
      simp only [rearm, rearmBody]
      cases ht : tm.heap a with
      | none => exact ih tm
      | some t =>
          simp only
          rw [applyAll_append, ih]
          by_cases hrec : t.recurring = true
          · simp only [hrec, if_true]
            rfl
          · simp only [hrec, Bool.false_eq_true, if_false]
            rfl

theorem rearmBody_previous (now : Nat) (gone : List Nat) (tm : TimerManager κ) (previous : Nat) :
    rearmBody now gone { tm with previouseTime := previous } = rearmBody now gone tm := by
  induction gone generalizing tm with
  | nil => rfl
  | cons a rest ih =>
      simp only [rearmBody]
      cases tm.heap a with
      | none => exact ih tm
      | some t =>
          simp only [applyAll_previous, ih]

/-- `listExpiredCb` is the loop over the timers it returns, apart from `m_previouseTime`. -/
theorem listExpiredCb_eq {rest : List Nat} (h : tm.returned now addr ++ rest = tm.timers) :
    ∃ previous, (tm.listExpiredCb now addr).1 =
      { (rearm now (tm.returned now addr) { tm with timers := rest }).1 with
        previouseTime := previous } := by
  cases hl : tm.timers with
  | nil =>
      have hrest : rest = [] := by
        rw [hl] at h
        exact (List.append_eq_nil_iff.mp h).2
      refine ⟨tm.previouseTime, ?_⟩
      simp only [listExpiredCb, returned, hl, rearm, hrest]
      rw [← hl]
  | cons front tail =>
      refine ⟨now, ?_⟩
      have hdrop : tm.timers.drop (tm.returned now addr).length = rest := by
        rw [← h, List.drop_left]
      simp only [returned, hl] at h hdrop
      simp only [listExpiredCb, returned, hl]
      split
      · rename_i hlate
        rw [if_pos hlate] at h
        simp only [rearm]
        rw [← show rest = front :: tail from h, show rest = tm.timers from h.trans hl.symm]
      · rename_i hlate
        rw [if_neg hlate] at hdrop
        rw [hdrop, rearm_eq_applyAll, rearm_eq_applyAll]
        have hprevious := rearmBody_previous now (tm.expired now addr)
          { tm with timers := rest } now
        rw [show rearmBody now (tm.expired now addr)
          { tm with previouseTime := now, timers := rest } = _ from hprevious]
        exact applyAll_previous { tm with timers := rest } now _

theorem safe_rearm (now : Nat) {gone : List Nat} (hnd : gone.Nodup)
    (hdis : ∀ a ∈ gone, a ∉ tm.timers) : tm.SafeAll (rearmBody now gone tm) := by
  induction gone generalizing tm with
  | nil => trivial
  | cons a rest ih =>
      obtain ⟨harest, hrest⟩ := List.nodup_cons.mp hnd
      have ha : a ∉ tm.timers := hdis a List.mem_cons_self
      have hdis' : ∀ b ∈ rest, b ∉ tm.timers := fun b hb => hdis b (List.mem_cons_of_mem _ hb)
      simp only [rearmBody]
      cases ht : tm.heap a with
      | none => exact ih hrest hdis'
      | some t =>
          simp only
          rw [safeAll_append]
          by_cases hrec : t.recurring = true
          · simp only [hrec, if_true]
            refine ⟨⟨fun hmem => absurd hmem ha, safe_insert ha, trivial⟩, ih hrest ?_⟩
            intro b hb hmem
            rcases mem_insert.mp hmem with rfl | h
            · exact harest hb
            · exact hdis' b hb h
          · simp only [hrec, Bool.false_eq_true, if_false]
            exact ⟨⟨fun hmem => absurd hmem ha, trivial⟩, ih hrest hdis'⟩

/-- Erasing the timers at the front one by one. -/
theorem applyAll_erase {gone rest : List Nat} (h : tm.timers = gone ++ rest) :
    tm.applyAll (gone.map .erase) = { tm with timers := rest } := by
  induction gone generalizing tm with
  | nil =>
      rw [List.nil_append] at h
      rw [← h]
      rfl
  | cons a as ih =>
      have herase : (tm.erase a).timers = as ++ rest := by
        show tm.timers.erase a = as ++ rest
        rw [h, List.cons_append, List.erase_cons_head]
      show (tm.erase a).applyAll (as.map .erase) = _
      rw [ih herase]
      rfl

theorem WF.safe_erase (h : tm.WF) {gone rest : List Nat} (hl : tm.timers = gone ++ rest) :
    tm.SafeAll (gone.map .erase) := by
  induction gone generalizing tm with
  | nil => trivial
  | cons a as ih =>
      have ha : a ∈ tm.timers := by
        rw [hl]
        exact List.mem_cons_self
      refine ⟨h.found_iff.mpr ha, ih (h.erase a) ?_⟩
      show tm.timers.erase a = as ++ rest
      rw [hl, List.cons_append, List.erase_cons_head]

/-! ## The locked sections -/

/-- `addTimer` is called with a callback. -/
def HasCallback (_ : Delivery κ) : TimerOp κ → Prop
  | .addTimer _ _ _ cb _ => cb.isSome = true
  | _ => True

theorem TimerSet.move (h : tm.TimerSet) {t t' : Timer κ} (ha : a ∈ tm.timers)
    (ht : tm.heap a = some t) (hcb : t'.cb = t.cb) :
    (((tm.erase a).store a t').insert a).TimerSet := by
  have hwf := h.wf.move a t'
  refine ⟨hwf.sorted, hwf.nodup, hwf.live, ?_⟩
  intro b x hx
  rw [insert_heap, store_heap] at hx
  rw [mem_insert, store_timers, h.wf.mem_erase]
  by_cases hba : b = a
  · subst hba
    rw [if_pos rfl, Option.some.injEq] at hx
    subst hx
    rw [hcb]
    simp [(h.member b t ht).mp ha]
  · rw [if_neg hba] at hx
    simp [hba, h.member b x hx]

theorem TimerSet.flags (h : tm.TimerSet) (tickled : Bool) (previous : Nat) :
    ({ tm with tickled := tickled, previouseTime := previous } : TimerManager κ).TimerSet :=
  ⟨h.sorted, h.once, h.live, h.member⟩

theorem TimerSet.cancel (h : tm.TimerSet) (a : Nat) : (tm.cancel a).1.TimerSet := by
  have hwf := h.wf.cancel a
  refine ⟨hwf.sorted, hwf.nodup, hwf.live, ?_⟩
  unfold TimerManager.cancel
  split
  · exact h.member
  · rename_i t ht
    split
    · intro b x hx
      rw [erase_heap, store_heap] at hx
      show b ∈ tm.timers.erase a ↔ _
      rw [h.once.mem_erase_iff]
      by_cases hba : b = a
      · subst hba
        rw [if_pos rfl, Option.some.injEq] at hx
        subst hx
        simp
      · rw [if_neg hba] at hx
        simp [hba, h.member b x hx]
    · exact h.member

theorem TimerSet.refresh (h : tm.TimerSet) (a now : Nat) : (tm.refresh a now).1.TimerSet := by
  unfold TimerManager.refresh
  split
  · exact h
  · rename_i t ht
    split
    · rename_i hc
      rw [Bool.and_eq_true, h.wf.found_iff] at hc
      exact h.move hc.2 ht rfl
    · exact h

theorem TimerSet.reset (h : tm.TimerSet) (a ms : Nat) (fromNow : Bool) (now : Nat) :
    (tm.reset a ms fromNow now).1.TimerSet := by
  unfold TimerManager.reset
  split
  · exact h
  · rename_i t ht
    split
    · rename_i hc
      rw [Bool.and_eq_true, h.wf.found_iff] at hc
      have hmove : (((tm.erase a).store a
        { t with ms, next := wrap64 (resetStart t now fromNow + ms) }).insert a).TimerSet :=
        h.move hc.2 ht rfl
      exact hmove.flags _ _
    · exact h

theorem TimerSet.addTimer (h : tm.TimerSet) {t : Timer κ} (ha : tm.heap a = none)
    (hcb : t.cb.isSome = true) : (tm.addTimer a t).1.TimerSet := by
  have hout : a ∉ tm.timers := by
    intro hmem
    obtain ⟨x, hx⟩ := h.live a hmem
    rw [ha] at hx
    cases hx
  have hwf := h.wf.addTimer t hout
  refine ⟨hwf.sorted, hwf.nodup, hwf.live, ?_⟩
  intro b x hx
  have hx' : (tm.store a t).heap b = some x := hx
  show b ∈ ((tm.store a t).insert a).timers ↔ _
  rw [store_heap] at hx'
  rw [mem_insert, store_timers]
  by_cases hba : b = a
  · rw [if_pos hba, Option.some.injEq] at hx'
    subst hx'
    simp [hba, hcb]
  · rw [if_neg hba] at hx'
    simp [hba, h.member b x hx']

theorem TimerSet.listExpiredCb (h : tm.TimerSet) (now addr : Nat) :
    (tm.listExpiredCb now addr).1.TimerSet := by
  have hwf := h.wf.listExpiredCb now addr
  refine ⟨hwf.sorted, hwf.nodup, hwf.live, ?_⟩
  intro b x hx
  rw [h.wf.listExpiredCb_heap] at hx
  rw [h.wf.mem_listExpiredCb]
  by_cases hb : b ∈ tm.returned now addr
  · rw [if_pos hb] at hx
    obtain ⟨t, ht⟩ := h.live b ((returned_initial tm now addr).subset hb)
    have hcb := (h.member b t ht).mp ((returned_initial tm now addr).subset hb)
    rw [ht, Option.map_some, Option.some.injEq] at hx
    subst hx
    unfold afterExpiry
    by_cases hrec : t.recurring = true
    · simp [hb, ht, hrec, hcb]
    · simp [hb, ht, hrec]
  · rw [if_neg hb] at hx
    simp [hb, h.member b x hx]

/-- The section is its writes, apart from the flags. -/
theorem step_body {s s' : Delivery κ} {op : TimerOp κ} (hs : timerStep s op = some s') :
    s'.tm.heap = (s.tm.applyAll (s.tm.body op)).heap ∧
      s'.tm.timers = (s.tm.applyAll (s.tm.body op)).timers := by
  cases op with
  | addTimer a created ms cb recurring =>
      simp only [timerStep] at hs
      split at hs
      · cases hs
        exact ⟨rfl, rfl⟩
      · cases hs
  | cancel a =>
      simp only [timerStep, Option.some.injEq] at hs
      subst hs
      simp only [body, TimerManager.cancel]
      cases s.tm.heap a with
      | none => exact ⟨rfl, rfl⟩
      | some t =>
          simp only
          split <;> exact ⟨rfl, rfl⟩
  | refresh a now =>
      cases hs
      simp only [body, TimerManager.refresh]
      cases s.tm.heap a with
      | none => exact ⟨rfl, rfl⟩
      | some t =>
          simp only
          split <;> exact ⟨rfl, rfl⟩
  | reset a ms fromNow now =>
      cases hs
      simp only [body, TimerManager.reset]
      cases s.tm.heap a with
      | none => exact ⟨rfl, rfl⟩
      | some t =>
          simp only
          split <;> exact ⟨rfl, rfl⟩
  | listExpiredCb now addr =>
      simp only [timerStep] at hs
      split at hs
      · cases hs
        obtain ⟨rest, hrest⟩ := returned_initial s.tm now addr
        simp only [body]
        rw [applyAll_append, applyAll_erase hrest.symm, ← rearm_eq_applyAll]
        obtain ⟨previous, heq⟩ := listExpiredCb_eq hrest
        rw [heq]
        exact ⟨rfl, rfl⟩
      · cases hs
  | getNextTimer now =>
      cases hs
      exact ⟨rfl, rfl⟩

theorem TimerSet.safe_body {s s' : Delivery κ} {op : TimerOp κ} (h : s.tm.TimerSet)
    (hs : timerStep s op = some s') : s.tm.SafeAll (s.tm.body op) := by
  cases op with
  | addTimer a created ms cb recurring =>
      simp only [timerStep] at hs
      split at hs
      · rename_i hfresh
        -- a new address has no timer object, so it is not in the set
        have hout : a ∉ s.tm.timers := by
          intro hmem
          obtain ⟨x, hx⟩ := h.live a hmem
          rw [hx] at hfresh
          cases hfresh
        exact ⟨fun hmem => absurd hmem hout, safe_insert hout, trivial⟩
      · cases hs
  | cancel a =>
      simp only [body]
      cases ht : s.tm.heap a with
      | none => trivial
      | some t =>
          simp only
          split
          · rename_i hcb
            have hnext : t.next = s.tm.next a := by simp [next, ht]
            have hmem : a ∈ s.tm.timers := (h.member a t ht).mpr hcb
            have hwf : (s.tm.store a { t with cb := none }).WF := h.wf.store fun _ => hnext
            exact ⟨fun _ => hnext, hwf.found_iff.mpr hmem, trivial⟩
          · trivial
  | refresh a now =>
      simp only [body]
      cases ht : s.tm.heap a with
      | none => trivial
      | some t =>
          simp only
          split
          · rename_i hc
            rw [Bool.and_eq_true, h.wf.found_iff] at hc
            exact h.wf.safe_move hc.2 _
          · trivial
  | reset a ms fromNow now =>
      simp only [body]
      cases ht : s.tm.heap a with
      | none => trivial
      | some t =>
          simp only
          split
          · rename_i hc
            rw [Bool.and_eq_true, h.wf.found_iff] at hc
            exact h.wf.safe_move hc.2 _
          · trivial
  | listExpiredCb now addr =>
      -- what is taken out is an initial part of the set, so it is out when it is put back
      obtain ⟨rest, hrest⟩ := returned_initial s.tm now addr
      have hnodup := h.once
      rw [← hrest, List.nodup_append] at hnodup
      simp only [body]
      rw [safeAll_append, applyAll_erase hrest.symm]
      refine ⟨h.wf.safe_erase hrest.symm, safe_rearm now hnodup.1 ?_⟩
      exact fun a ha hmem => hnodup.2.2 a ha a hmem rfl
  | getNextTimer now => trivial

theorem TimerSet.step {s s' : Delivery κ} {op : TimerOp κ} (h : s.tm.TimerSet)
    (hcb : HasCallback s op) (hs : timerStep s op = some s') : s'.tm.TimerSet := by
  cases op with
  | addTimer a created ms cb recurring =>
      simp only [timerStep] at hs
      split at hs
      · rename_i hfresh
        cases hs
        exact h.addTimer (Option.isNone_iff_eq_none.mp hfresh) hcb
      · cases hs
  | cancel a =>
      simp only [timerStep, Option.some.injEq] at hs
      subst hs
      exact h.cancel a
  | refresh a now =>
      cases hs
      exact h.refresh a now
  | reset a ms fromNow now =>
      cases hs
      exact h.reset a ms fromNow now
  | listExpiredCb now addr =>
      simp only [timerStep] at hs
      split at hs
      · cases hs
        exact h.listExpiredCb now addr
      · cases hs
  | getNextTimer now =>
      cases hs
      exact h.flags _ _

end TimerManager

open TimerManager

theorem timerSet_inductive :
    (timerSys κ).Inductive HasCallback fun s => s.tm.TimerSet where
  init := by
    rintro s ⟨now, rfl⟩
    refine ⟨List.Pairwise.nil, List.nodup_nil, (new_wf now).live, ?_⟩
    intro a t ht
    cases ht
  step := fun _ _ _ h hcb hs => h.step hcb hs

/-- Between the locked sections a timer is in the set exactly when it has a callback, and the
set is strictly ordered; inside a section every write finds what it asks for. -/
theorem timer_set {s : Delivery κ} (h : (timerSys κ).Reaches HasCallback s) :
    s.tm.TimerSet ∧ ∀ op s', timerStep s op = some s' →
      s.tm.SafeAll (s.tm.body op) ∧
      s'.tm.heap = (s.tm.applyAll (s.tm.body op)).heap ∧
      s'.tm.timers = (s.tm.applyAll (s.tm.body op)).timers := by
  have hset := timerSet_inductive.invariant h
  exact ⟨hset, fun op s' hs => ⟨hset.safe_body hs, step_body hs⟩⟩

def callbackTest (_ : Delivery κ) : TimerOp κ → Bool
  | .addTimer _ _ _ cb _ => cb.isSome
  | _ => true

theorem hasCallback_of_test (s : Delivery κ) (op : TimerOp κ) (h : callbackTest s op = true) :
    HasCallback s op := by
  cases op with
  | addTimer a created ms cb recurring => exact h
  | _ => trivial

/-- After both timers have been returned the recurring one is pending again. -/
theorem timer_set_two : ∃ s : Delivery CbId, s.tm.timers = [2] ∧
    s.tm.TimerSet ∧ ∀ op s', timerStep s op = some s' →
      s.tm.SafeAll (s.tm.body op) ∧
      s'.tm.heap = (s.tm.applyAll (s.tm.body op)).heap ∧
      s'.tm.timers = (s.tm.applyAll (s.tm.body op)).timers := by
  obtain ⟨s, hs, hp⟩ := TSys.exists_reaches (M := timerSys CbId) (G := HasCallback)
    (s := .start 0) (l := twoTimersTrace.take 3) (p := fun s => s.tm.timers == [2])
    hasCallback_of_test ⟨0, rfl⟩ (by decide +kernel)
  exact ⟨s, eq_of_beq hp, timer_set hs⟩

end Gxh
