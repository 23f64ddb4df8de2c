import Mathlib.Data.List.Nodup
import Gxh.Timer.Expiry

/-!
# Delivery of callbacks

The locked sections of one timer manager in any order, each with the clock reading its thread
brings along: `timerSys`. `Deed` records what the callers see, the callbacks returned and the
cancellations that answered true.

`Exact` is what one `listExpiredCb` does when it detects no rollover: it returns the callbacks of
the pending timers that are due, in the order of their deadlines, re-arms the recurring ones and
retires the others. Over a run (`timers_exact`) it follows that a callback that is not recurring
is returned once at most, and none after its timer was cancelled.
-/

namespace Gxh

variable {κ : Type}

namespace TimerManager

variable {tm : TimerManager κ} {now addr a : Nat}

/-- What `listExpiredCb` makes of an expired timer. -/
def afterExpiry (now : Nat) (t : Timer κ) : Timer κ :=
  if t.recurring then { t with next := wrap64 (now + t.ms) } else { t with cb := none }

/-! ## The loop over the expired timers -/

theorem rearm_heap (now : Nat) {gone : List Nat} (hnd : gone.Nodup) (a : Nat) :
    (rearm now gone tm).1.heap a =
      if a ∈ gone then (tm.heap a).map (afterExpiry now) else tm.heap a := by
  induction gone generalizing tm with
  | nil => simp [rearm]
  | cons b rest ih =>
      obtain ⟨hbrest, hrest⟩ := List.nodup_cons.mp hnd
      unfold rearm
      split
      · rename_i hb
        rw [ih hrest]
        by_cases hab : a = b
        · subst hab
          simp [hbrest, hb]
        · simp [hab]
      · rename_i t hb
        rw [ih hrest]
        by_cases hab : a = b
        · subst hab
          rw [if_neg hbrest, if_pos List.mem_cons_self, hb, Option.map_some, afterExpiry]
          split
          · rw [insert_heap, store_heap_self]
          · rw [store_heap_self]
        · by_cases hrec : t.recurring = true
          · simp only [hrec, if_true, insert_heap, store_heap, hab, if_false, List.mem_cons,
              false_or]
          · simp only [hrec, Bool.false_eq_true, store_heap, hab, if_false, List.mem_cons, false_or]

theorem mem_rearm (now : Nat) {gone : List Nat} (hnd : gone.Nodup) :
    a ∈ (rearm now gone tm).1.timers ↔
      a ∈ tm.timers ∨ a ∈ gone ∧ ∃ t, tm.heap a = some t ∧ t.recurring = true := by
  induction gone generalizing tm with
  | nil => simp [rearm]
  | cons b rest ih =>
      obtain ⟨hbrest, hrest⟩ := List.nodup_cons.mp hnd
      have hne : a ∈ rest → a ≠ b := fun ha he => hbrest (he ▸ ha)
      unfold rearm
      split
      · rename_i hb
        rw [ih hrest, List.mem_cons]
        constructor
        · rintro (h | ⟨h, ht⟩)
          · exact .inl h
          · exact .inr ⟨.inr h, ht⟩
        · rintro (h | ⟨rfl | h, t, ht, hr⟩)
          · exact .inl h
          · rw [hb] at ht
            cases ht
          · exact .inr ⟨h, t, ht, hr⟩
      · rename_i t hb
        rw [ih hrest, List.mem_cons]
        split
        · rename_i hrec
          rw [mem_insert, store_timers, insert_heap, store_heap]
          constructor
          · rintro ((rfl | h) | ⟨h, ht⟩)
            · exact .inr ⟨.inl rfl, t, hb, hrec⟩
            · exact .inl h
            · rw [if_neg (hne h)] at ht
              exact .inr ⟨.inr h, ht⟩
          · rintro (h | ⟨rfl | h, ht⟩)
            · exact .inl (.inr h)
            · exact .inl (.inl rfl)
            · rw [if_neg (hne h)]
              exact .inr ⟨h, ht⟩
        · rename_i hrec
          rw [store_timers, store_heap]
          constructor
          · rintro (h | ⟨h, ht⟩)
            · exact .inl h
            · rw [if_neg (hne h)] at ht
              exact .inr ⟨.inr h, ht⟩
          · rintro (h | ⟨rfl | h, x, hx, hr⟩)
            · exact .inl h
            · rw [hb] at hx
              cases hx
              exact absurd hr hrec
            · rw [if_neg (hne h)]
              exact .inr ⟨h, x, hx, hr⟩

/-! ## Which timers are expired -/

/-- Without a rollover the timers taken out are those that are due. The dummy timer is a new
object, and has an address of its own. -/
theorem WF.mem_expired (h : tm.WF) (hroll : tm.rollover now = false) (haddr : addr ∉ tm.timers) :
    a ∈ tm.expired now addr ↔ a ∈ tm.timers ∧ tm.next a ≤ now := by
  constructor
  · intro ha
    exact ⟨(expired_initial tm now addr).subset ha, expired_due hroll ha⟩
  · rintro ⟨hmem, hdue⟩
    -- the comparator against the dummy timer
    have hprobe : ∀ b ∈ tm.timers, comparator (Function.update tm.next addr now) b addr = true ↔
        tm.next b < now ∨ tm.next b = now ∧ b < addr := by
      intro b hb
      have hne : b ≠ addr := fun he => haddr (he ▸ hb)
      rw [comparator_iff, Function.update_of_ne hne, Function.update_self]
    have hlower : ∀ b ∈ tm.timers, ∀ c ∈ tm.timers, tm.lt b c = true →
        comparator (Function.update tm.next addr now) c addr = true →
        comparator (Function.update tm.next addr now) b addr = true := by
      intro b hb c hc hbc hcp
      rw [hprobe c hc] at hcp
      rw [hprobe b hb]
      rw [lt, comparator_iff] at hbc
      omega
    set below := fun b => comparator (Function.update tm.next addr now) b addr with hbelow
    have hparts : tm.timers.takeWhile below ++ tm.timers.dropWhile below = tm.timers :=
      List.takeWhile_append_dropWhile
    have hdrop : tm.timers.drop (tm.timers.takeWhile below).length = tm.timers.dropWhile below := by
      calc tm.timers.drop (tm.timers.takeWhile below).length
          = (tm.timers.takeWhile below ++ tm.timers.dropWhile below).drop
              (tm.timers.takeWhile below).length := by rw [hparts]
        _ = tm.timers.dropWhile below := List.drop_left
    have hgoal : tm.expired now addr = tm.timers.takeWhile below ++
        (tm.timers.dropWhile below).takeWhile fun b => tm.next b == now := by
      simp only [expired, hroll, Bool.false_eq_true, if_false, OrdSet.below, ← hbelow, hdrop]
    rw [hgoal, List.mem_append]
    by_cases ha : below a = true
    · exact .inl (h.sorted.mem_takeWhile hlower hmem ha)
    · right
      -- behind the lower bound a deadline is not before `now`
      have hrest : ∀ b ∈ tm.timers.dropWhile below, now ≤ tm.next b := by
        intro b hb
        have hnot := h.sorted.of_mem_dropWhile (lt_strict tm) hlower hb
        have hmemb := (List.dropWhile_sublist below).subset hb
        rw [← Bool.not_eq_true, hprobe b hmemb] at hnot
        omega
      have hsorted := h.sorted.sublist (List.dropWhile_sublist below)
      have hdropped : a ∈ tm.timers.dropWhile below := by
        rw [← hparts] at hmem
        refine (List.mem_append.mp hmem).resolve_left fun htake => ha ?_
        exact List.all_eq_true.mp List.all_takeWhile a htake
      refine hsorted.mem_takeWhile ?_ hdropped ?_
      · intro b hb c hc hbc hcn
        have hle := next_le_of_lt hbc
        have hge := hrest b hb
        simp only [beq_iff_eq] at hcn ⊢
        omega
      · have hge := hrest a hdropped
        simp only [beq_iff_eq]
        omega

theorem WF.mem_returned (h : tm.WF) (hroll : tm.timers ≠ [] → tm.rollover now = false)
    (haddr : addr ∉ tm.timers) : a ∈ tm.returned now addr ↔ a ∈ tm.timers ∧ tm.next a ≤ now := by
  cases hl : tm.timers with
  | nil => simp [returned, hl]
  | cons front rest =>
      have hroll' := hroll (by rw [hl]; exact List.cons_ne_nil _ _)
      simp only [returned, hl, hroll', Bool.not_false, Bool.true_and, decide_eq_true_eq]
      split
      · rename_i hlate
        constructor
        · intro ha
          cases ha
        · rintro ⟨ha, hdue⟩
          have hle := h.front_le hl (hl ▸ ha)
          omega
      · rw [h.mem_expired hroll' haddr, hl]

/-- What `listExpiredCb` at clock reading `now` does when it detects no rollover. -/
structure Exact (tm : TimerManager κ) (now addr : Nat) : Prop where
  cbs : (tm.listExpiredCb now addr).2 =
    (tm.returned now addr).map fun a => (tm.heap a).bind Timer.cb
  due : ∀ a, a ∈ tm.returned now addr ↔ a ∈ tm.timers ∧ tm.next a ≤ now
  once : (tm.returned now addr).Nodup
  ordered : (tm.returned now addr).Pairwise fun a b => tm.next a ≤ tm.next b
  kept : ∀ a, a ∉ tm.returned now addr →
    (a ∈ (tm.listExpiredCb now addr).1.timers ↔ a ∈ tm.timers) ∧
      (tm.listExpiredCb now addr).1.heap a = tm.heap a
  rearmed : ∀ a ∈ tm.returned now addr, ∀ t, tm.heap a = some t → t.recurring = true →
    a ∈ (tm.listExpiredCb now addr).1.timers ∧
      (tm.listExpiredCb now addr).1.heap a = some { t with next := wrap64 (now + t.ms) }
  retired : ∀ a ∈ tm.returned now addr, ∀ t, tm.heap a = some t → t.recurring = false →
    a ∉ (tm.listExpiredCb now addr).1.timers ∧
      (tm.listExpiredCb now addr).1.heap a = some { t with cb := none }

theorem returned_initial (tm : TimerManager κ) (now addr : Nat) :
    tm.returned now addr <+: tm.timers := by
  unfold returned
  split
  · exact List.nil_prefix
  · split
    · exact List.nil_prefix
    · exact expired_initial tm now addr

theorem WF.returned_nodup (h : tm.WF) (now addr : Nat) : (tm.returned now addr).Nodup :=
  h.nodup.sublist (returned_initial tm now addr).sublist

theorem WF.listExpiredCb_heap (h : tm.WF) (now addr a : Nat) :
    (tm.listExpiredCb now addr).1.heap a =
      if a ∈ tm.returned now addr then (tm.heap a).map (afterExpiry now) else tm.heap a := by
  have hnd := h.returned_nodup now addr
  cases hl : tm.timers with
  | nil => simp [TimerManager.listExpiredCb, returned, hl]
  | cons front rest =>
      simp only [returned, TimerManager.listExpiredCb, hl] at hnd ⊢
      split
      · simp
      · rename_i hlate
        rw [if_neg hlate] at hnd
        rw [rearm_heap now hnd]

theorem WF.mem_listExpiredCb (h : tm.WF) (now addr a : Nat) :
    a ∈ (tm.listExpiredCb now addr).1.timers ↔
      a ∈ tm.timers ∧ a ∉ tm.returned now addr ∨
        a ∈ tm.returned now addr ∧ ∃ t, tm.heap a = some t ∧ t.recurring = true := by
  have hnd := h.returned_nodup now addr
  obtain ⟨rest, hrest⟩ := returned_initial tm now addr
  have hnodup := h.nodup
  rw [← hrest, List.nodup_append] at hnodup
  have hleft : a ∈ tm.timers.drop (tm.returned now addr).length ↔
      a ∈ tm.timers ∧ a ∉ tm.returned now addr := by
    rw [← hrest, List.drop_left, List.mem_append]
    constructor
    · exact fun ha => ⟨.inr ha, fun hr => hnodup.2.2 a hr a ha rfl⟩
    · exact fun ⟨ha, hr⟩ => ha.resolve_left hr
  rw [← hleft]
  cases hl : tm.timers with
  | nil => simp [TimerManager.listExpiredCb, returned, hl]
  | cons front tail =>
      simp only [returned, TimerManager.listExpiredCb, hl] at hnd ⊢
      split
      · simp
      · rename_i hlate
        rw [if_neg hlate] at hnd
        rw [mem_rearm now hnd]

theorem WF.exact (h : tm.WF) (hroll : tm.timers ≠ [] → tm.rollover now = false)
    (haddr : addr ∉ tm.timers) : tm.Exact now addr where
  cbs := listExpiredCb_cbs h now addr
  due := fun _ => h.mem_returned hroll haddr
  once := h.returned_nodup now addr
  ordered := by
    have hsorted := h.sorted.sublist (returned_initial tm now addr).sublist
    exact List.Pairwise.imp next_le_of_lt hsorted
  kept := by
    intro a ha
    rw [h.listExpiredCb_heap, if_neg ha, h.mem_listExpiredCb]
    simp [ha]
  rearmed := by
    intro a ha t ht hrec
    rw [h.listExpiredCb_heap, if_pos ha, ht, h.mem_listExpiredCb, Option.map_some, afterExpiry,
      if_pos hrec]
    exact ⟨.inr ⟨ha, t, ht, hrec⟩, rfl⟩
  retired := by
    intro a ha t ht hrec
    rw [h.listExpiredCb_heap, if_pos ha, ht, h.mem_listExpiredCb, Option.map_some, afterExpiry,
      hrec, if_neg Bool.false_ne_true]
    refine ⟨?_, rfl⟩
    rintro (⟨-, hout⟩ | ⟨-, t', ht', hrec'⟩)
    · exact hout ha
    · rw [ht] at ht'
      cases ht'
      rw [hrec] at hrec'
      cases hrec'

/-! ## What an operation can do to a timer -/

/-- A timer keeps its kind, and does not come back once it has left the set. -/
structure Effect (tm tm' : TimerManager κ) : Prop where
  kept : ∀ a t, tm.heap a = some t → ∃ t', tm'.heap a = some t' ∧ t'.recurring = t.recurring
  out : ∀ a t, tm.heap a = some t → a ∉ tm.timers → a ∉ tm'.timers

theorem Effect.refl (tm : TimerManager κ) : Effect tm tm :=
  ⟨fun _ t ht => ⟨t, ht, rfl⟩, fun _ _ _ h => h⟩

/-- A pending timer is rewritten with its kind kept. -/
theorem Effect.move {t t' : Timer κ} (ha : a ∈ tm.timers) (ht : tm.heap a = some t)
    (hrec : t'.recurring = t.recurring) : Effect tm (((tm.erase a).store a t').insert a) where
  kept := by
    intro b x hx
    rw [insert_heap, store_heap]
    split
    · subst b
      rw [ht] at hx
      cases hx
      exact ⟨t', rfl, hrec⟩
    · exact ⟨x, hx, rfl⟩
  out := by
    intro b x _ hb hmem
    rcases mem_insert.mp hmem with rfl | h
    · exact hb ha
    · exact hb (List.mem_of_mem_erase h)

theorem cancel_effect (tm : TimerManager κ) (a : Nat) : Effect tm (tm.cancel a).1 := by
  unfold TimerManager.cancel
  split
  · exact .refl tm
  · rename_i t ht
    split
    · refine ⟨?_, fun b x _ hb hmem => hb (List.mem_of_mem_erase hmem)⟩
      intro b x hx
      rw [erase_heap, store_heap]
      split
      · subst b
        rw [ht] at hx
        cases hx
        exact ⟨_, rfl, rfl⟩
      · exact ⟨x, hx, rfl⟩
    · exact .refl tm

theorem WF.refresh_effect (h : tm.WF) (a now : Nat) : Effect tm (tm.refresh a now).1 := by
  unfold TimerManager.refresh
  split
  · exact .refl tm
  · rename_i t ht
    split
    · rename_i hc
      rw [Bool.and_eq_true, h.found_iff] at hc
      exact .move hc.2 ht rfl
    · exact .refl tm

theorem WF.reset_effect (h : tm.WF) (a ms : Nat) (fromNow : Bool) (now : Nat) :
    Effect tm (tm.reset a ms fromNow now).1 := by
  unfold TimerManager.reset
  split
  · exact .refl tm
  · rename_i t ht
    split
    · rename_i hc
      rw [Bool.and_eq_true, h.found_iff] at hc
      have hmove : Effect tm (((tm.erase a).store a
        { t with ms, next := wrap64 (resetStart t now fromNow + ms) }).insert a) :=
        .move hc.2 ht rfl
      exact ⟨hmove.kept, hmove.out⟩
    · exact .refl tm

theorem addTimer_effect {t : Timer κ} (ha : tm.heap a = none) : Effect tm (tm.addTimer a t).1 where
  kept := by
    intro b x hx
    have hba : b ≠ a := by
      rintro rfl
      rw [ha] at hx
      cases hx
    refine ⟨x, ?_, rfl⟩
    show (tm.store a t).heap b = some x
    rw [store_heap, if_neg hba]
    exact hx
  out := by
    intro b x hx hb hmem
    rcases mem_insert.mp hmem with rfl | h
    · rw [ha] at hx
      cases hx
    · exact hb h

theorem WF.listExpiredCb_effect (h : tm.WF) (now addr : Nat) :
    Effect tm (tm.listExpiredCb now addr).1 where
  kept := by
    intro b x hx
    rw [h.listExpiredCb_heap, hx]
    split
    · refine ⟨_, rfl, ?_⟩
      unfold afterExpiry
      split <;> rfl
    · exact ⟨x, rfl, rfl⟩
  out := by
    intro b x _ hb
    rw [h.mem_listExpiredCb]
    rintro (⟨hmem, -⟩ | ⟨hmem, -⟩)
    · exact hb hmem
    · exact hb ((returned_initial tm now addr).subset hmem)

end TimerManager

/-! ## Runs -/

/-- What the callers see. -/
inductive Deed
  | returned (a : Nat)
  | cancelled (a : Nat)
  deriving DecidableEq

structure Delivery (κ : Type) where
  tm : TimerManager κ
  log : List Deed

/-- The locked sections, with the clock readings they use: `created` of the constructor of
`Timer`, `now` of the others. `addr` is the address of `now_timer`. -/
inductive TimerOp (κ : Type)
  | addTimer (a created ms : Nat) (cb : Option κ) (recurring : Bool)
  | cancel (a : Nat)
  | refresh (a now : Nat)
  | reset (a ms : Nat) (fromNow : Bool) (now : Nat)
  | listExpiredCb (now addr : Nat)
  | getNextTimer (now : Nat)

/-- One locked section. An address belongs to one object. -/
def timerStep (s : Delivery κ) : TimerOp κ → Option (Delivery κ)
  | .addTimer a created ms cb recurring =>
      if (s.tm.heap a).isNone then
        some { s with tm := (s.tm.addTimer a (.new created ms cb recurring)).1 }
      else none
  | .cancel a =>
      let r := s.tm.cancel a
      some ⟨r.1, s.log ++ if r.2 then [.cancelled a] else []⟩
  | .refresh a now => some { s with tm := (s.tm.refresh a now).1 }
  | .reset a ms fromNow now => some { s with tm := (s.tm.reset a ms fromNow now).1 }
  | .listExpiredCb now addr =>
      if (s.tm.heap addr).isNone then
        some ⟨(s.tm.listExpiredCb now addr).1, s.log ++ (s.tm.returned now addr).map .returned⟩
      else none
  | .getNextTimer now => some { s with tm := (s.tm.getNextTimer now).1 }

def Delivery.start (now : Nat) : Delivery κ := ⟨.new now, []⟩

/-- Any order of the locked sections of one manager. -/
def timerSys (κ : Type) : TSys (Delivery κ) (TimerOp κ) where
  init s := ∃ now, s = .start now
  step := timerStep

/-- `detectClockRollover` does not answer true. -/
def NoRollover (s : Delivery κ) : TimerOp κ → Prop
  | .listExpiredCb now _ => s.tm.timers ≠ [] → s.tm.rollover now = false
  | _ => True

/-- No callback is returned after its timer was cancelled. -/
def Respects (log : List Deed) : Prop :=
  ∀ pre post a, log = pre ++ .cancelled a :: post → .returned a ∉ post

theorem Respects.append {log more : List Deed} (h : Respects log) (hmore : Respects more)
    (hnew : ∀ a, .cancelled a ∈ log → .returned a ∉ more) : Respects (log ++ more) := by
  intro pre post a heq hmem
  rcases List.append_eq_append_iff.mp heq with ⟨mid, rfl, hmid⟩ | ⟨mid, rfl, hmid⟩
  · exact hmore mid post a hmid hmem
  · cases mid with
    | nil => exact hmore [] post a hmid.symm hmem
    | cons x rest =>
        obtain ⟨rfl, rfl⟩ := List.cons.inj hmid
        rcases List.mem_append.mp hmem with hrest | hmore'
        · exact h pre rest a rfl hrest
        · exact hnew a (by simp) hmore'

theorem respects_returned (l : List Nat) : Respects (l.map .returned) := by
  intro pre post a heq
  have hmem : Deed.cancelled a ∈ l.map Deed.returned := by
    rw [heq]
    simp
  obtain ⟨b, -, hb⟩ := List.mem_map.mp hmem
  cases hb

/-- The record and the set agree. -/
structure DeliveryInv (s : Delivery κ) : Prop where
  wf : s.tm.WF
  known : ∀ a, .returned a ∈ s.log ∨ .cancelled a ∈ s.log → ∃ t, s.tm.heap a = some t
  cancelled : ∀ a, .cancelled a ∈ s.log → a ∉ s.tm.timers
  retired : ∀ a t, s.tm.heap a = some t → t.recurring = false → .returned a ∈ s.log →
    a ∉ s.tm.timers
  once : ∀ a t, s.tm.heap a = some t → t.recurring = false → s.log.count (.returned a) ≤ 1
  after : Respects s.log

/-- A locked section that returns and cancels nothing. -/
theorem DeliveryInv.quiet {s : Delivery κ} {tm' : TimerManager κ} (h : DeliveryInv s)
    (hwf : tm'.WF) (heff : s.tm.Effect tm') : DeliveryInv { s with tm := tm' } where
  wf := hwf
  known := by
    intro a ha
    obtain ⟨t, ht⟩ := h.known a ha
    obtain ⟨t', ht', -⟩ := heff.kept a t ht
    exact ⟨t', ht'⟩
  cancelled := by
    intro a ha
    obtain ⟨t, ht⟩ := h.known a (.inr ha)
    exact heff.out a t ht (h.cancelled a ha)
  retired := by
    intro a t' ht' hrec ha
    obtain ⟨t, ht⟩ := h.known a (.inl ha)
    obtain ⟨x, hx, hsame⟩ := heff.kept a t ht
    rw [ht'] at hx
    cases hx
    exact heff.out a t ht (h.retired a t ht (hsame ▸ hrec) ha)
  once := by
    intro a t' ht' hrec
    by_cases ha : Deed.returned a ∈ s.log
    · obtain ⟨t, ht⟩ := h.known a (.inl ha)
      obtain ⟨x, hx, hsame⟩ := heff.kept a t ht
      rw [ht'] at hx
      cases hx
      exact h.once a t ht (hsame ▸ hrec)
    · rw [List.count_eq_zero_of_not_mem ha]
      exact Nat.zero_le 1
  after := h.after

theorem DeliveryInv.cancel {s : Delivery κ} (h : DeliveryInv s) {a : Nat}
    (hok : (s.tm.cancel a).2 = true) :
    DeliveryInv ⟨(s.tm.cancel a).1, s.log ++ [.cancelled a]⟩ := by
  have hq := h.quiet (h.wf.cancel a) (TimerManager.cancel_effect s.tm a)
  -- the timer leaves the set
  have hgone : (∃ t, (s.tm.cancel a).1.heap a = some t) ∧ a ∉ (s.tm.cancel a).1.timers := by
    unfold TimerManager.cancel at hok ⊢
    cases ht : s.tm.heap a with
    | none =>
        rw [ht] at hok
        cases hok
    | some t =>
      simp only [ht] at hok ⊢
      split at hok
      · rename_i hcb
        rw [if_pos hcb]
        refine ⟨⟨_, TimerManager.store_heap_self a _⟩, fun hmem => ?_⟩
        exact h.wf.nodup.not_mem_erase hmem
      · cases hok
  have hreturned : ∀ b, Deed.returned b ∈ s.log ++ [Deed.cancelled a] → .returned b ∈ s.log := by
    intro b hb
    simpa using hb
  refine ⟨hq.wf, ?_, ?_, ?_, ?_, ?_⟩
  · rintro b (hb | hb)
    · exact hq.known b (.inl (hreturned b hb))
    · rcases List.mem_append.mp hb with hb | hb
      · exact hq.known b (.inr hb)
      · obtain rfl : b = a := by simpa using hb
        exact hgone.1
  · intro b hb
    rcases List.mem_append.mp hb with hb | hb
    · exact hq.cancelled b hb
    · obtain rfl : b = a := by simpa using hb
      exact hgone.2
  · exact fun b t ht hrec hb => hq.retired b t ht hrec (hreturned b hb)
  · intro b t ht hrec
    have hcount : (s.log ++ [Deed.cancelled a]).count (.returned b) =
        s.log.count (.returned b) := by
      simp
    rw [hcount]
    exact hq.once b t ht hrec
  · refine hq.after.append ?_ ?_
    · intro pre post b heq hmem
      have hlen := congrArg List.length heq
      simp only [List.length_append, List.length_cons, List.length_nil] at hlen
      have hpost : post = [] := List.eq_nil_of_length_eq_zero (by omega)
      rw [hpost] at hmem
      cases hmem
    · intro b _ hmem
      simp at hmem

theorem DeliveryInv.listExpiredCb {s : Delivery κ} (h : DeliveryInv s) (now addr : Nat) :
    DeliveryInv ⟨(s.tm.listExpiredCb now addr).1,
      s.log ++ (s.tm.returned now addr).map .returned⟩ := by
  have hq := h.quiet (h.wf.listExpiredCb now addr) (h.wf.listExpiredCb_effect now addr)
  have hpending : ∀ b ∈ s.tm.returned now addr, b ∈ s.tm.timers :=
    fun b hb => (TimerManager.returned_initial s.tm now addr).subset hb
  have hreturned : ∀ b, Deed.returned b ∈ s.log ++ (s.tm.returned now addr).map Deed.returned →
      .returned b ∈ s.log ∨ b ∈ s.tm.returned now addr := by
    intro b hb
    simpa using hb
  refine ⟨hq.wf, ?_, ?_, ?_, ?_, ?_⟩
  · rintro b (hb | hb)
    · rcases hreturned b hb with hb | hb
      · exact hq.known b (.inl hb)
      · obtain ⟨t, ht⟩ := h.wf.live b (hpending b hb)
        obtain ⟨t', ht', -⟩ := (h.wf.listExpiredCb_effect now addr).kept b t ht
        exact ⟨t', ht'⟩
    · have hb' : Deed.cancelled b ∈ s.log := by simpa using hb
      exact hq.known b (.inr hb')
  · intro b hb
    have hb' : Deed.cancelled b ∈ s.log := by simpa using hb
    exact hq.cancelled b hb'
  · intro b t' ht' hrec hb
    rcases hreturned b hb with hb | hb
    · exact hq.retired b t' ht' hrec hb
    · obtain ⟨t, ht⟩ := h.wf.live b (hpending b hb)
      obtain ⟨x, hx, hsame⟩ := (h.wf.listExpiredCb_effect now addr).kept b t ht
      rw [ht'] at hx
      cases hx
      rw [h.wf.mem_listExpiredCb]
      rintro (⟨-, hout⟩ | ⟨-, x, hx, hxrec⟩)
      · exact hout hb
      · rw [ht] at hx
        cases hx
        rw [← hsame, hrec] at hxrec
        cases hxrec
  · intro b t' ht' hrec
    rw [List.count_append]
    by_cases hb : b ∈ s.tm.returned now addr
    · -- it was pending, so it had not been returned before
      obtain ⟨t, ht⟩ := h.wf.live b (hpending b hb)
      obtain ⟨x, hx, hsame⟩ := (h.wf.listExpiredCb_effect now addr).kept b t ht
      rw [ht'] at hx
      cases hx
      have hnot : Deed.returned b ∉ s.log := fun hmem =>
        h.retired b t ht (hsame ▸ hrec) hmem (hpending b hb)
      have hnd : ((s.tm.returned now addr).map Deed.returned).Nodup :=
        List.Nodup.map (fun _ _ heq => Deed.returned.inj heq) (h.wf.returned_nodup now addr)
      rw [List.count_eq_zero_of_not_mem hnot, Nat.zero_add]
      exact List.nodup_iff_count_le_one.mp hnd _
    · have hnot : Deed.returned b ∉ (s.tm.returned now addr).map Deed.returned := by
        simpa using hb
      rw [List.count_eq_zero_of_not_mem hnot, Nat.add_zero]
      exact hq.once b t' ht' hrec
  · refine hq.after.append (respects_returned _) ?_
    intro b hb hmem
    obtain ⟨c, hc, hcb⟩ := List.mem_map.mp hmem
    cases hcb
    exact h.cancelled b hb (hpending b hc)

theorem timerStep_inv {s s' : Delivery κ} {op : TimerOp κ} (h : DeliveryInv s)
    (hs : timerStep s op = some s') : DeliveryInv s' := by
  cases op with
  | addTimer a created ms cb recurring =>
      simp only [timerStep] at hs
      split at hs
      · rename_i hfresh
        cases hs
        have hnone : s.tm.heap a = none := Option.isNone_iff_eq_none.mp hfresh
        have hout : a ∉ s.tm.timers := by
          intro hmem
          obtain ⟨t, ht⟩ := h.wf.live a hmem
          rw [hnone] at ht
          cases ht
        exact h.quiet (h.wf.addTimer _ hout) (TimerManager.addTimer_effect hnone)
      · cases hs
  | cancel a =>
      simp only [timerStep, Option.some.injEq] at hs
      subst hs
      cases hok : (s.tm.cancel a).2 with
      | true => exact h.cancel hok
      | false =>
          simp only [Bool.false_eq_true, if_false, List.append_nil]
          exact h.quiet (h.wf.cancel a) (TimerManager.cancel_effect s.tm a)
  | refresh a now =>
      cases hs
      exact h.quiet (h.wf.refresh a now) (h.wf.refresh_effect a now)
  | reset a ms fromNow now =>
      cases hs
      exact h.quiet (h.wf.reset a ms fromNow now) (h.wf.reset_effect a ms fromNow now)
  | listExpiredCb now addr =>
      simp only [timerStep] at hs
      split at hs
      · cases hs
        exact h.listExpiredCb now addr
      · cases hs
  | getNextTimer now =>
      cases hs
      exact h.quiet (h.wf.getNextTimer now) ⟨fun _ t ht => ⟨t, ht, rfl⟩, fun _ _ _ hout => hout⟩

theorem delivery_inductive : (timerSys κ).Inductive NoRollover DeliveryInv where
  init := by
    rintro s ⟨now, rfl⟩
    refine ⟨TimerManager.new_wf now, ?_, ?_, ?_, ?_, ?_⟩
    · rintro a (ha | ha) <;> cases ha
    · intro a ha
      cases ha
    · intro a t _ _ ha
      cases ha
    · intro a t ht
      cases ht
    · intro pre post a heq
      cases pre <;> cases heq
  step := fun _ _ _ h _ hs => timerStep_inv h hs

/-- In a run without a detected rollover every `listExpiredCb` is exact, a callback that is not
recurring is returned once at most, and none after its timer was cancelled. -/
theorem timers_exact {s : Delivery κ} (h : (timerSys κ).Reaches NoRollover s) :
    (∀ now addr s', NoRollover s (.listExpiredCb now addr) →
      timerStep s (.listExpiredCb now addr) = some s' → s.tm.Exact now addr) ∧
    (∀ a t, s.tm.heap a = some t → t.recurring = false → s.log.count (.returned a) ≤ 1) ∧
    Respects s.log := by
  have hinv := delivery_inductive.invariant h
  refine ⟨?_, hinv.once, hinv.after⟩
  intro now addr s' hroll hs
  simp only [timerStep] at hs
  split at hs
  · rename_i hfresh
    refine hinv.wf.exact hroll fun hmem => ?_
    obtain ⟨t, ht⟩ := hinv.wf.live addr hmem
    rw [ht] at hfresh
    cases hfresh
  · cases hs

def noRolloverTest (s : Delivery κ) : TimerOp κ → Bool
  | .listExpiredCb now _ => s.tm.timers.isEmpty || !s.tm.rollover now
  | _ => true

theorem noRollover_of_test (s : Delivery κ) (op : TimerOp κ) (h : noRolloverTest s op = true) :
    NoRollover s op := by
  cases op with
  | listExpiredCb now addr =>
      intro hne
      simpa [noRolloverTest, hne] using h
  | _ => trivial

/-- A one-shot and a recurring timer with one deadline; the recurring one is cancelled after
both have been returned. -/
def twoTimersTrace : List (TimerOp CbId) :=
  [.addTimer 2 0 5 (some 20) true, .addTimer 1 0 5 (some 10) false, .listExpiredCb 5 3, .cancel 2,
    .listExpiredCb 20 3]

theorem timers_exact_two : ∃ s : Delivery CbId,
    s.log = [.returned 1, .returned 2, .cancelled 2] ∧
    (∀ now addr s', NoRollover s (.listExpiredCb now addr) →
      timerStep s (.listExpiredCb now addr) = some s' → s.tm.Exact now addr) ∧
    (∀ a t, s.tm.heap a = some t → t.recurring = false → s.log.count (.returned a) ≤ 1) ∧
    Respects s.log := by
  obtain ⟨s, hs, hp⟩ := TSys.exists_reaches (M := timerSys CbId) (G := NoRollover)
    (s := .start 0) (l := twoTimersTrace)
    (p := fun s => s.log == [.returned 1, .returned 2, .cancelled 2]) noRollover_of_test
    ⟨0, rfl⟩ (by decide +kernel)
  exact ⟨s, eq_of_beq hp, timers_exact hs⟩

end Gxh
