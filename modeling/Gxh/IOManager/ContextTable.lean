import Gxh.Lib.TSys
import Gxh.Lib.Word
import Gxh.IOManager.FdContext
import Mathlib.Logic.Function.Basic
import Mathlib.Data.List.GetD

/-!
# The descriptor table under concurrent `addEvent`

`m_fdContexts` is a vector of pointers to heap-allocated `FdContext`s. `addEvent`
looks the context up in two lock sections: the size test and the access under the
read lock, or, when the table is too short, `contextResize(fd * 1.5)` and the access
under the write lock, taken only after the read lock was released. Between the two
any other thread may run its own resize.

* `Table` is the state: the vector, the contexts allocated so far, and the point
  each thread has reached inside `addEvent`;
* `tableSys` interleaves the lock sections of any number of threads;
* `TableSafe` is what the callers rely on: no access past the end, and every
  context with registered events is the one its descriptor's index holds.
-/

namespace Gxh.IOManager

/-- An `FdContext *`: the allocation number of the context. -/
abbrev CtxId := Nat

/-- An entry of a list is an entry of every list it is a prefix of. -/
theorem getElem?_of_prefix {α : Type} {l l' : List α} (h : l <+: l') {k : Nat} {a : α}
    (hk : l[k]? = some a) : l'[k]? = some a := by
  obtain ⟨hlt, hget⟩ := List.getElem?_eq_some_iff.mp hk
  rw [List.prefix_iff_getElem?.mp h k hlt, hget]

/-- `fd * 1.5` converted back to `size_t`; exact for every `int`. -/
def growSize (fd : Nat) : Nat := 3 * fd / 2

/-- Where a thread stands inside `addEvent`. -/
inductive AddPc
  /-- not inside `addEvent` -/
  | out
  /-- found the table too short; the write lock is not yet taken -/
  | grow (fd : Nat) (event : Event)
  /-- holds the context pointer; the context's mutex is not yet taken -/
  | have (ctx : CtxId) (event : Event)
  /-- read `m_fdContexts[fd]` past the end of the vector -/
  | wild
  deriving DecidableEq, Repr

/-- The table, the heap of contexts and the threads. A `none` entry is a null
pointer, as `resize` leaves them before the fill loop. -/
structure Table where
  contexts : List (Option CtxId)
  heap : List FdContext
  pc : Nat → AddPc

/-- `std::vector::resize`. -/
def resize (l : List (Option CtxId)) (size : Nat) : List (Option CtxId) :=
  l.take size ++ List.replicate (size - l.length) none

/-- The fill loop of `contextResize` from index `i` on: a null entry gets a new
context for its own index. -/
def fill (i : Nat) : List (Option CtxId) → List FdContext →
    List (Option CtxId) × List FdContext
  | [], heap => ([], heap)
  | some c :: rest, heap =>
      let r := fill (i + 1) rest heap
      (some c :: r.1, r.2)
  | none :: rest, heap =>
      let r := fill (i + 1) rest (heap ++ [FdContext.new i])
      (some heap.length :: r.1, r.2)

/-- `IOManager::contextResize`. -/
def contextResize (t : Table) (size : Nat) : Table :=
  let r := fill 0 (resize t.contexts size) t.heap
  { t with contexts := r.1, heap := r.2 }

/-- `fd_ctx = m_fdContexts[fd]` by thread `i`. -/
def access (t : Table) (i fd : Nat) (event : Event) : Table :=
  { t with pc := Function.update t.pc i <|
      match t.contexts[fd]? with
      | some (some c) => .have c event
      | _ => .wild }

/-- Change the mask of one context. -/
def setEvents (t : Table) (c : CtxId) (f : Mask → Mask) : Table :=
  { t with heap := t.heap.modify c fun x => { x with events := f x.events } }

/-- The lock sections of the threads. -/
inductive TableAct
  /-- `addEvent(fd, event)` up to the release of the read lock -/
  | look (i fd : Nat) (event : Event)
  /-- the write-lock section of `addEvent` -/
  | grow (i : Nat)
  /-- the section under the context's mutex; `ok` is the result of `epoll_ctl` -/
  | register (i : Nat) (ok : Bool)
  /-- `delEvent` / `cancelEvent` of `fd` -/
  | delEvent (fd : Nat) (event : Event)
  /-- `idle` clears an event through the pointer epoll gave back -/
  | clear (ctx : CtxId) (event : Event)
  deriving DecidableEq, Repr

/-- One lock section. -/
def tableStep (t : Table) : TableAct → Option Table
  | .look i fd event =>
      if t.pc i = .out then
        if toInt t.contexts.length > fd then some (access t i fd event)
        else some { t with pc := Function.update t.pc i (.grow fd event) }
      else none
  | .grow i =>
      match t.pc i with
      | .grow fd event => some (access (contextResize t (growSize fd)) i fd event)
      | _ => none
  | .register i ok =>
      match t.pc i with
      | .have c event =>
          -- the assertion `!(fd_ctx->events & event)` ends the process
          if (t.heap.getD c (.new 0)).events.has event then none
          else
            let t' := { t with pc := Function.update t.pc i .out }
            some (if ok then setEvents t' c (·.union (.ofEvent event)) else t')
      | _ => none
  | .delEvent fd event =>
      if toInt t.contexts.length ≤ fd then some t
      else
        match t.contexts[fd]? with
        | some (some c) => some (setEvents t c (·.diff (.ofEvent event)))
        | _ => none
  | .clear c event => some (setEvents t c (·.diff (.ofEvent event)))

/-- The table after the constructor's `contextResize(32)`. -/
def Table.start : Table := contextResize ⟨[], [], fun _ => .out⟩ 32

/-- Any number of threads calling `addEvent` on any descriptors. -/
def tableSys : TSys Table TableAct where
  init t := t = Table.start
  step := tableStep

/-- What the callers of `addEvent` rely on. -/
structure TableSafe (t : Table) : Prop where
  inBounds : ∀ i, t.pc i ≠ .wild
  reachable : ∀ (c : CtxId) (x : FdContext), t.heap[c]? = some x → x.events ≠ .NONE →
    t.contexts[x.fd]? = some (some c)

/-- A resize by thread `i` does not cut the table: it is no longer than the size
that thread is about to set. -/
def GrowsTable (t : Table) : TableAct → Prop
  | .grow i => ∀ fd event, t.pc i = .grow fd event → t.contexts.length ≤ growSize fd
  | _ => True

/-! ## The fill loop -/

@[simp] theorem fill_length (i : Nat) (l : List (Option CtxId)) (heap : List FdContext) :
    (fill i l heap).1.length = l.length := by
  induction l generalizing i heap with
  | nil => rfl
  | cons x rest ih =>
      cases x <;> simp [fill, ih]

/-- The fill loop keeps the contexts already allocated. -/
theorem fill_heap (i : Nat) (l : List (Option CtxId)) (heap : List FdContext) :
    heap <+: (fill i l heap).2 := by
  induction l generalizing i heap with
  | nil => exact List.prefix_rfl
  | cons x rest ih =>
      cases x with
      | some c => exact ih (i + 1) heap
      | none => exact (List.prefix_append heap [FdContext.new i]).trans (ih (i + 1) _)

/-- The fill loop keeps the entries that were set. -/
theorem fill_some (i : Nat) (l : List (Option CtxId)) (heap : List FdContext) (k : Nat)
    (c : CtxId) (h : l[k]? = some (some c)) : (fill i l heap).1[k]? = some (some c) := by
  induction l generalizing i heap k with
  | nil => simp at h
  | cons x rest ih =>
      cases k with
      | zero =>
          simp only [List.getElem?_cons_zero, Option.some.injEq] at h
          simp [h, fill]
      | succ k =>
          simp only [List.getElem?_cons_succ] at h
          cases x <;> simpa [fill] using ih _ _ k h

/-- A context of the new heap was there before or has no events. -/
theorem fill_new (i : Nat) (l : List (Option CtxId)) (heap : List FdContext) (c : CtxId)
    (x : FdContext) (h : (fill i l heap).2[c]? = some x) :
    heap[c]? = some x ∨ x.events = .NONE := by
  induction l generalizing i heap with
  | nil => exact .inl h
  | cons y rest ih =>
      cases y with
      | some d => exact ih (i + 1) heap h
      | none =>
          rcases ih (i + 1) _ h with h1 | h1
          · rcases Nat.lt_or_ge c heap.length with hc | hc
            · rw [List.getElem?_append_left hc] at h1
              exact .inl h1
            · -- the appended context is the only one past the old heap
              rw [List.getElem?_append_right hc] at h1
              obtain ⟨hlt, hx⟩ := List.getElem?_eq_some_iff.mp h1
              rw [List.getElem_singleton] at hx
              exact .inr (hx ▸ rfl)
          · exact .inr h1

/-- After the loop every entry points at a context of its own index. -/
theorem fill_owned (i : Nat) (l : List (Option CtxId)) (heap : List FdContext)
    (howned : ∀ (k : Nat) (c : CtxId), l[k]? = some (some c) →
      ∃ x : FdContext, heap[c]? = some x ∧ x.fd = i + k) :
    ∀ k < l.length, ∃ (c : CtxId) (x : FdContext), (fill i l heap).1[k]? = some (some c) ∧
      (fill i l heap).2[c]? = some x ∧ x.fd = i + k := by
  induction l generalizing i heap with
  | nil => simp
  | cons y rest ih =>
      intro k hk
      -- what the recursive call starts from: the old heap, or the old heap and one more
      have step : ∀ heap' : List FdContext, heap <+: heap' →
          ∀ (k : Nat) (c : CtxId), rest[k]? = some (some c) →
            ∃ x : FdContext, heap'[c]? = some x ∧ x.fd = (i + 1) + k := by
        intro heap' hpre k c hc
        obtain ⟨x, hx, hfd⟩ := howned (k + 1) c (by simpa using hc)
        exact ⟨x, getElem?_of_prefix hpre hx, by omega⟩
      cases y with
      | some d =>
          cases k with
          | zero =>
              obtain ⟨x, hx, hfd⟩ := howned 0 d rfl
              exact ⟨d, x, rfl, getElem?_of_prefix (fill_heap _ _ _) hx, hfd⟩
          | succ k =>
              obtain ⟨c, x, hc, hx, hfd⟩ := ih (i + 1) heap (step heap List.prefix_rfl) k
                (by simpa using hk)
              exact ⟨c, x, by simpa [fill] using hc, hx, by omega⟩
      | none =>
          have hpre : heap <+: heap ++ [FdContext.new i] := List.prefix_append _ _
          cases k with
          | zero =>
              have hnew : (heap ++ [FdContext.new i])[heap.length]? = some (FdContext.new i) :=
                List.getElem?_concat_length
              exact ⟨heap.length, FdContext.new i, rfl,
                getElem?_of_prefix (fill_heap (i + 1) rest _) hnew, rfl⟩
          | succ k =>
              obtain ⟨c, x, hc, hx, hfd⟩ := ih (i + 1) _ (step _ hpre) k (by simpa using hk)
              exact ⟨c, x, by simpa [fill] using hc, hx, by omega⟩

/-! ## The invariant of runs that never cut the table -/

/-- No entry is null and entry `k` points at a context for descriptor `k`; a
pointer a thread holds is the entry of its descriptor. -/
structure TableInv (t : Table) : Prop where
  big : 32 ≤ t.contexts.length
  owned : ∀ k < t.contexts.length, ∃ (c : CtxId) (x : FdContext),
    t.contexts[k]? = some (some c) ∧ t.heap[c]? = some x ∧ x.fd = k
  held : ∀ i c event, t.pc i = .have c event →
    ∃ x : FdContext, t.heap[c]? = some x ∧ t.contexts[x.fd]? = some (some c)
  safe : TableSafe t

theorem resize_of_le {l : List (Option CtxId)} {size : Nat} (h : l.length ≤ size) :
    resize l size = l ++ List.replicate (size - l.length) none := by
  rw [resize, List.take_of_length_le h]

theorem resize_length (l : List (Option CtxId)) (size : Nat) :
    (resize l size).length = size := by
  simp only [resize, List.length_append, List.length_take, List.length_replicate]
  omega

@[simp] theorem contextResize_pc (t : Table) (size : Nat) : (contextResize t size).pc = t.pc :=
  rfl

theorem contextResize_length (t : Table) (size : Nat) :
    (contextResize t size).contexts.length = size := by
  simp [contextResize, resize_length]

/-- A resize that does not cut keeps every set entry. -/
theorem contextResize_keeps {t : Table} {size : Nat} (h : t.contexts.length ≤ size) {k : Nat}
    {c : CtxId} (hk : t.contexts[k]? = some (some c)) :
    (contextResize t size).contexts[k]? = some (some c) := by
  refine fill_some 0 _ _ k c ?_
  rw [resize_of_le h]
  exact getElem?_of_prefix (List.prefix_append _ _) hk

/-- Under the invariant a resize that does not cut only appends to the table. -/
theorem contextResize_prefix {t : Table} {size : Nat} (hinv : TableInv t)
    (h : t.contexts.length ≤ size) : t.contexts <+: (contextResize t size).contexts := by
  rw [List.prefix_iff_getElem?]
  intro k hk
  obtain ⟨c, x, hc, -, -⟩ := hinv.owned k hk
  rw [contextResize_keeps h hc, ← hc, List.getElem?_eq_getElem hk]

/-- A resize that does not cut keeps the invariant. -/
theorem contextResize_inv {t : Table} {size : Nat} (hinv : TableInv t)
    (h : t.contexts.length ≤ size) : TableInv (contextResize t size) := by
  have hheap : t.heap <+: (contextResize t size).heap := fill_heap _ _ _
  refine ⟨?_, ?_, ?_, ?_, ?_⟩
  · rw [contextResize_length]
    exact hinv.big.trans h
  · intro k hk
    rw [contextResize_length] at hk
    have hown := fill_owned 0 (resize t.contexts size) t.heap ?_ k
      (by rw [resize_length]; exact hk)
    · simpa [contextResize] using hown
    · -- the set entries of the resized vector are the old ones
      intro k c hc
      rw [resize_of_le h] at hc
      rcases Nat.lt_or_ge k t.contexts.length with hk | hk
      · rw [List.getElem?_append_left hk] at hc
        obtain ⟨c', x, hc', hx, hfd⟩ := hinv.owned k hk
        rw [hc] at hc'
        simp only [Option.some.injEq] at hc'
        exact ⟨x, hc' ▸ hx, by omega⟩
      · rw [List.getElem?_append_right hk] at hc
        simp [List.getElem?_replicate] at hc
  · intro i c event hi
    obtain ⟨x, hx, hc⟩ := hinv.held i c event hi
    exact ⟨x, getElem?_of_prefix hheap hx, contextResize_keeps h hc⟩
  · exact hinv.safe.inBounds
  · intro c x hx hev
    rcases fill_new 0 _ t.heap c x hx with hold | hnone
    · exact contextResize_keeps h (hinv.safe.reachable c x hold hev)
    · exact absurd hnone hev

/-- An access inside the table keeps the invariant. -/
theorem access_inv {t : Table} {i fd : Nat} {event : Event} (hinv : TableInv t)
    (h : fd < t.contexts.length) : TableInv (access t i fd event) := by
  obtain ⟨c, x, hc, hx, hfd⟩ := hinv.owned fd h
  have hpc : (access t i fd event).pc = Function.update t.pc i (.have c event) := by
    simp [access, hc]
  refine ⟨hinv.big, hinv.owned, ?_, ?_, hinv.safe.reachable⟩
  · intro j c' event' hj
    rw [hpc] at hj
    by_cases hji : j = i
    · subst hji
      simp only [Function.update_self, AddPc.have.injEq] at hj
      exact ⟨x, hj.1 ▸ hx, by rw [hfd, ← hj.1]; exact hc⟩
    · rw [Function.update_of_ne hji] at hj
      exact hinv.held j c' event' hj
  · intro j
    rw [hpc]
    by_cases hji : j = i
    · subst hji
      simp
    · rw [Function.update_of_ne hji]
      exact hinv.safe.inBounds j

/-- Changing a mask keeps the invariant when only contexts whose pointer is the
table's own gain events. -/
theorem setEvents_inv {t : Table} {c : CtxId} {f : Mask → Mask} (hinv : TableInv t)
    (h : ∀ x : FdContext, t.heap[c]? = some x → f x.events ≠ .NONE →
      t.contexts[x.fd]? = some (some c)) : TableInv (setEvents t c f) := by
  have hget : ∀ d : CtxId, (setEvents t c f).heap[d]? =
      if c = d then (t.heap[d]?).map (fun x => { x with events := f x.events })
      else t.heap[d]? := by
    intro d
    by_cases hcd : c = d
    · simp [setEvents, hcd]
    · simp [setEvents, hcd]
  have hfd : ∀ (d : CtxId) (x : FdContext), t.heap[d]? = some x →
      ∃ y : FdContext, (setEvents t c f).heap[d]? = some y ∧ y.fd = x.fd := by
    intro d x hx
    rw [hget, hx]
    by_cases hcd : c = d <;> simp [hcd]
  refine ⟨hinv.big, ?_, ?_, hinv.safe.inBounds, ?_⟩
  · intro k hk
    obtain ⟨d, x, hd, hx, hxk⟩ := hinv.owned k hk
    obtain ⟨y, hy, hyfd⟩ := hfd d x hx
    exact ⟨d, y, hd, hy, hyfd.trans hxk⟩
  · intro i d event hi
    obtain ⟨x, hx, hc⟩ := hinv.held i d event hi
    obtain ⟨y, hy, hyfd⟩ := hfd d x hx
    exact ⟨y, hy, by rw [hyfd]; exact hc⟩
  · intro d y hy hev
    rw [hget] at hy
    by_cases hcd : c = d
    · subst hcd
      simp only [if_true, Option.map_eq_some_iff] at hy
      obtain ⟨x, hx, rfl⟩ := hy
      exact h x hx hev
    · rw [if_neg hcd] at hy
      exact hinv.safe.reachable d y hy hev

/-- Moving a thread to a point that holds no pointer keeps the invariant. -/
theorem setPc_inv {t : Table} {i : Nat} {p : AddPc} (hinv : TableInv t) (hw : p ≠ .wild)
    (hp : ∀ c event, p ≠ .have c event) :
    TableInv { t with pc := Function.update t.pc i p } := by
  refine ⟨hinv.big, hinv.owned, ?_, ?_, hinv.safe.reachable⟩
  · intro j c event hj
    by_cases hji : j = i
    · subst hji
      exact absurd (by simpa using hj) (hp c event)
    · exact hinv.held j c event (by simpa [Function.update_of_ne hji] using hj)
  · intro j
    by_cases hji : j = i
    · subst hji
      simpa using hw
    · simpa [Function.update_of_ne hji] using hinv.safe.inBounds j

theorem start_inv : TableInv Table.start := by
  have hlen : Table.start.contexts.length = 32 := contextResize_length _ _
  refine ⟨hlen.ge, ?_, ?_, ?_, ?_⟩
  · intro k hk
    have hnone : ∀ (k : Nat) (c : CtxId), (resize [] 32)[k]? ≠ some (some c) := by
      intro k c hc
      simp only [resize, List.take_nil, List.nil_append, List.getElem?_replicate] at hc
      split at hc <;> simp at hc
    have hown := fill_owned 0 (resize [] 32) [] (fun k c hc => absurd hc (hnone k c)) k
      (by rw [resize_length]; omega)
    simpa [Table.start, contextResize] using hown
  · intro i c event hi
    cases hi
  · intro i hi
    cases hi
  · intro c x hx hev
    rcases fill_new 0 _ [] c x hx with h | h
    · simp at h
    · exact absurd h hev

/-- With the table at least 32 long, a resize that does not cut it ends past `fd`. -/
theorem lt_growSize {n fd : Nat} (hbig : 32 ≤ n) (h : n ≤ growSize fd) : fd < growSize fd := by
  unfold growSize at *
  omega

/-- Every lock section of a run that never cuts the table keeps the invariant. -/
theorem tableStep_inv {t t' : Table} {a : TableAct} (hinv : TableInv t) (hg : GrowsTable t a)
    (hs : tableStep t a = some t') : TableInv t' := by
  cases a with
  | look i fd event =>
      simp only [tableStep] at hs
      split at hs
      · split at hs
        · rename_i hsize
          have hlt : fd < t.contexts.length := by
            have := toInt_le t.contexts.length
            omega
          cases hs
          exact access_inv hinv hlt
        · cases hs
          exact setPc_inv hinv (by simp) (by simp)
      · cases hs
  | grow i =>
      simp only [tableStep] at hs
      split at hs
      · rename_i fd event hpc
        have hle := hg fd event hpc
        cases hs
        refine access_inv (contextResize_inv hinv hle) ?_
        rw [contextResize_length]
        exact lt_growSize hinv.big hle
      · cases hs
  | register i ok =>
      simp only [tableStep] at hs
      split at hs
      · rename_i c event hpc
        split at hs
        · cases hs
        · cases hs
          have hout := setPc_inv (i := i) (p := .out) hinv (by simp) (by simp)
          cases ok with
          | false => exact hout
          | true =>
              rw [if_pos rfl]
              refine setEvents_inv hout ?_
              intro x hx _
              obtain ⟨y, hy, hc⟩ := hinv.held i c event hpc
              have hxy : some x = some y := hx.symm.trans hy
              cases hxy
              exact hc
      · cases hs
  | delEvent fd event =>
      simp only [tableStep] at hs
      split at hs
      · cases hs
        exact hinv
      · split at hs
        · rename_i c hc
          cases hs
          refine setEvents_inv hinv ?_
          intro x hx hev
          refine hinv.safe.reachable c x hx ?_
          rintro hnone
          simp [hnone, Mask.eq_NONE_iff] at hev
        · cases hs
  | clear c event =>
      simp only [tableStep, Option.some.injEq] at hs
      subst hs
      refine setEvents_inv hinv ?_
      intro x hx hev
      refine hinv.safe.reachable c x hx ?_
      rintro hnone
      simp [hnone, Mask.eq_NONE_iff] at hev

theorem table_inductive : tableSys.Inductive GrowsTable TableInv where
  init := by
    rintro t rfl
    exact start_inv
  step := fun _ _ _ hinv hg hs => tableStep_inv hinv hg hs

/-- Under the invariant a lock section keeps the table's entries exactly when it
is not a resize to less than the current length. -/
theorem tableStep_prefix_iff {t t' : Table} {a : TableAct} (hinv : TableInv t)
    (hs : tableStep t a = some t') : t.contexts <+: t'.contexts ↔ GrowsTable t a := by
  cases a with
  | grow i =>
      simp only [tableStep] at hs
      split at hs
      · rename_i fd event hpc
        cases hs
        constructor
        · intro hpre fd' event' hpc'
          rw [hpc] at hpc'
          cases hpc'
          have hlen := hpre.length_le
          simp only [access, contextResize_length] at hlen
          exact hlen
        · intro hg
          exact contextResize_prefix hinv (hg fd event hpc)
      · cases hs
  | look i fd event =>
      simp only [tableStep] at hs
      split at hs
      · split at hs <;> cases hs <;> exact iff_of_true List.prefix_rfl trivial
      · cases hs
  | register i ok =>
      simp only [tableStep] at hs
      split at hs
      · split at hs
        · cases hs
        · cases hs
          cases ok <;> exact iff_of_true List.prefix_rfl trivial
      · cases hs
  | delEvent fd event =>
      simp only [tableStep] at hs
      split at hs
      · cases hs
        exact iff_of_true List.prefix_rfl trivial
      · split at hs <;> cases hs
        exact iff_of_true List.prefix_rfl trivial
  | clear c event =>
      cases hs
      exact iff_of_true List.prefix_rfl trivial

/-- In a run whose every resize sets at least the current length, every access is
inside the table, every context with registered events is its descriptor's entry,
and no entry is ever dropped; and a resize to less does drop entries. -/
theorem table_keeps_contexts {t : Table} (h : tableSys.Reaches GrowsTable t) :
    TableSafe t ∧ ∀ a t', tableStep t a = some t' →
      (t.contexts <+: t'.contexts ↔ GrowsTable t a) :=
  have hinv := table_inductive.invariant h
  ⟨hinv.safe, fun _ _ hs => tableStep_prefix_iff hinv hs⟩

/-- `GrowsTable`, as a test. -/
def growsTableTest (t : Table) : TableAct → Bool
  | .grow i =>
      match t.pc i with
      | .grow fd _ => decide (t.contexts.length ≤ growSize fd)
      | _ => true
  | _ => true

theorem growsTable_of_test (t : Table) (a : TableAct) (h : growsTableTest t a = true) :
    GrowsTable t a := by
  cases a with
  | grow i =>
      intro fd event hpc
      simp only [growsTableTest, hpc, decide_eq_true_eq] at h
      exact h
  | _ => trivial

/-- Two threads find the 32 entries too short for 33 and 50. The first grows the table to 49, the
second to 75, and the events of both are there until `idle` clears one. -/
def grownTrace : List TableAct :=
  [.look 0 33 .READ, .look 1 50 .READ, .grow 0, .register 0 true, .grow 1, .register 1 true,
    .look 2 33 .WRITE, .register 2 true, .clear 33 .READ]

theorem table_keeps_contexts_grown :
    ∃ t, t.contexts.length = 75 ∧
      ((t.heap.filter fun x => x.events ≠ .NONE).map fun x => (x.fd, x.events)) =
        [(33, .ofEvent .WRITE), (50, .ofEvent .READ)] ∧
      TableSafe t ∧ ∀ a t', tableStep t a = some t' →
        (t.contexts <+: t'.contexts ↔ GrowsTable t a) := by
  obtain ⟨t, ht, htest⟩ := TSys.exists_reaches (M := tableSys) growsTable_of_test
    (s := .start) (l := grownTrace)
    (p := fun t => decide (t.contexts.length = 75) &&
      decide (((t.heap.filter fun x => x.events ≠ .NONE).map fun x => (x.fd, x.events)) =
        [(33, .ofEvent .WRITE), (50, .ofEvent .READ)]))
    rfl (by decide +kernel)
  simp only [Bool.and_eq_true, decide_eq_true_eq] at htest
  exact ⟨t, htest.1, htest.2, table_keeps_contexts ht⟩

/-- Two threads find the 32 entries too short for 50 and 33. The first grows the
table to 75 and registers a read event; the second then cuts it to 49. -/
def cutTrace : List TableAct :=
  [.look 0 50 .READ, .look 1 33 .READ, .grow 0, .register 0 true]

/-- The table shrinks and the context of descriptor 50, with its event still
registered, is in the table no more. -/
theorem table_shrinks :
    ∃ t t', tableSys.Reachable t ∧ tableStep t (.grow 1) = some t' ∧
      t'.contexts.length < t.contexts.length ∧ ¬ TableSafe t' := by
  have hrun : ((tableSys.exec (fun _ _ => true) Table.start cutTrace).bind fun t =>
      (tableStep t (.grow 1)).map fun t' =>
        decide (t'.contexts.length < t.contexts.length) &&
          (t'.heap[50]?.any fun x => x.events != .NONE && t'.contexts[x.fd]? != some (some 50)))
      = some true := by
    decide +kernel
  obtain ⟨t, ht, hrest⟩ := Option.bind_eq_some_iff.mp hrun
  obtain ⟨t', hstep, htest⟩ := Option.map_eq_some_iff.mp hrest
  simp only [Bool.and_eq_true, decide_eq_true_eq, Option.any_eq_true, bne_iff_ne] at htest
  obtain ⟨hlt, x, hx, hev, hlost⟩ := htest
  exact ⟨t, t', TSys.exec_reaches (fun _ _ _ => trivial) (.init rfl) ht, hstep, hlt,
    fun hsafe => hlost (hsafe.reachable 50 x hx hev)⟩

end Gxh.IOManager
