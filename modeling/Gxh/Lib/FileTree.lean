import Mathlib.Data.List.Basic
import Mathlib.Data.List.Infix
import Mathlib.Data.List.Nodup

/-!
# Trees of files

A finite tree of directories, symbolic links and other files, as a map from locations to nodes. A
location is the names from the node up to the root: `n :: l` is the entry `n` of `l`, and what is
at `l` or below it has the suffix `l`.

* `Tree.erase` — the removal of a node without entries;
* `Tree.walk` — the resolution of the directory part of a path, with the links it follows;
* `Part` — one tree is left of another one. What a path finds in the part it finds in the whole
  (`find_of_part`), and what is not passed on the way may be missing (`find_of_passed`).
-/

namespace Gxh.FileTree

/-- A component of a path. -/
inductive Comp (ν : Type)
  | here
  | up
  | down (name : ν)

inductive Node (ν α : Type)
  | dir
  | link (absolute : Bool) (target : List (Comp ν))
  | leaf (kind : α)

structure Tree (ν α : Type) where
  nodes : List (List ν × Node ν α)
  nodup : (nodes.map Prod.fst).Nodup
  root : ([], .dir) ∈ nodes
  /-- Only directories have entries. -/
  parent : ∀ n l nd, (n :: l, nd) ∈ nodes → (l, .dir) ∈ nodes

/-- A directory to start from, the names on the way, and the name of an entry of the last one. -/
structure Path (ν : Type) where
  start : List ν
  dir : List (Comp ν)
  last : ν

def Path.child {ν : Type} (p : Path ν) (name : ν) : Path ν :=
  ⟨p.start, p.dir ++ [.down p.last], name⟩

/-- What the resolution of a list of components comes to: the directory, if there is one, the nodes
on the way and those of them that are links. -/
structure Visit (ν : Type) where
  dir : Option (List ν)
  passed : List (List ν)
  followed : List (List ν)

namespace Visit

variable {ν : Type}

def stay (l : List ν) : Visit ν := ⟨some l, [], []⟩

def fail : Visit ν := ⟨none, [], []⟩

def pass (l : List ν) (v : Visit ν) : Visit ν := ⟨v.dir, l :: v.passed, v.followed⟩

def follow (l : List ν) (v : Visit ν) : Visit ν := ⟨v.dir, l :: v.passed, l :: v.followed⟩

/-- One visit behind another one. -/
def append (v w : Visit ν) : Visit ν :=
  ⟨w.dir, v.passed ++ w.passed, v.followed ++ w.followed⟩

end Visit

namespace Tree

variable {ν α : Type} [DecidableEq ν]

def lookup (t : Tree ν α) (l : List ν) : Option (Node ν α) := t.nodes.lookup l

/-- The names in the directory `l`. -/
def entries (t : Tree ν α) (l : List ν) : List ν :=
  t.nodes.filterMap fun p =>
    match p.1 with
    | [] => none
    | n :: k => if k = l then some n else none

/-- The walk along components, with what is done at a link. -/
def steps (t : Tree ν α) (follow : List ν → List (Comp ν) → Visit ν) :
    List ν → List (Comp ν) → Visit ν
  | cur, [] => .stay cur
  | cur, .here :: cs => t.steps follow cur cs
  | cur, .up :: cs => t.steps follow cur.tail cs
  | cur, .down n :: cs =>
      match t.lookup (n :: cur) with
      | some .dir => (t.steps follow (n :: cur) cs).pass (n :: cur)
      | some (.link absolute target) =>
          (follow (if absolute then [] else cur) (target ++ cs)).follow (n :: cur)
      | some (.leaf _) => .fail
      | none => .fail

/-- The walk along components that gives up at a link after so many others. -/
def walk (t : Tree ν α) : Nat → List ν → List (Comp ν) → Visit ν
  | 0 => t.steps fun _ _ => .fail
  | links + 1 => t.steps (t.walk links)

/-- What a path names. A link in its last place is not followed. -/
def find (t : Tree ν α) (links : Nat) (p : Path ν) : Option (List ν × Node ν α) :=
  (t.walk links p.start p.dir).dir.bind fun d =>
    (t.lookup (p.last :: d)).map fun nd => (p.last :: d, nd)

/-- No location is longer. -/
def depth (t : Tree ν α) : Nat := (t.nodes.map fun p => p.1.length).foldr max 0

/-! ## Lookups -/

theorem lookup_eq_some {t : Tree ν α} {l : List ν} {nd : Node ν α} :
    t.lookup l = some nd ↔ (l, nd) ∈ t.nodes := by
  constructor
  · intro h
    obtain ⟨front, back, hsplit, -⟩ := List.lookup_eq_some_iff.mp h
    rw [hsplit]
    exact List.mem_append_right _ List.mem_cons_self
  · intro h
    obtain ⟨front, back, hsplit⟩ := List.append_of_mem h
    refine List.lookup_eq_some_iff.mpr ⟨front, back, hsplit, fun q hq => ?_⟩
    have hnodup := t.nodup
    rw [hsplit, List.map_append, List.map_cons] at hnodup
    rw [bne_iff_ne]
    rintro rfl
    exact List.disjoint_of_nodup_append hnodup (List.mem_map_of_mem hq) List.mem_cons_self

theorem lookup_parent {t : Tree ν α} {n : ν} {l : List ν} {nd : Node ν α}
    (h : t.lookup (n :: l) = some nd) : t.lookup l = some .dir :=
  lookup_eq_some.mpr (t.parent n l nd (lookup_eq_some.mp h))

theorem mem_entries {t : Tree ν α} {l : List ν} {n : ν} :
    n ∈ t.entries l ↔ ∃ nd, t.lookup (n :: l) = some nd := by
  simp only [lookup_eq_some]
  unfold entries
  rw [List.mem_filterMap]
  constructor
  · rintro ⟨⟨k, nd⟩, hmem, hk⟩
    cases k with
    | nil => cases hk
    | cons m k =>
        dsimp only at hk
        split at hk
        · rename_i hkl
          cases hk
          exact ⟨nd, hkl ▸ hmem⟩
        · cases hk
  · rintro ⟨nd, hmem⟩
    exact ⟨_, hmem, if_pos rfl⟩

theorem nodup_entries (t : Tree ν α) (l : List ν) : (t.entries l).Nodup := by
  have hkeys : t.entries l = (t.nodes.map Prod.fst).filterMap fun k =>
      match k with
      | [] => none
      | n :: k => if k = l then some n else none := by
    rw [List.filterMap_map]
    rfl
  rw [hkeys]
  refine t.nodup.filterMap fun k k' n hk hk' => ?_
  cases k with
  | nil => cases hk
  | cons m k =>
      cases k' with
      | nil => cases hk'
      | cons m' k' =>
          dsimp only at hk hk'
          split at hk
          · split at hk'
            · rename_i heq heq'
              cases hk
              cases hk'
              rw [heq, heq']
            · cases hk'
          · cases hk

theorem entries_eq_nil {t : Tree ν α} {l : List ν} :
    t.entries l = [] ↔ ∀ n, t.lookup (n :: l) = none := by
  rw [List.eq_nil_iff_forall_not_mem]
  refine forall_congr' fun n => ?_
  rw [mem_entries, Option.eq_none_iff_forall_ne_some, not_exists]

/-- On the way to what is below `l` is an entry of `l`. -/
theorem exists_entry {t : Tree ν α} {l k : List ν} {nd : Node ν α} (hk : t.lookup k = some nd)
    (hsuffix : l <:+ k) (hne : k ≠ l) :
    ∃ n nd', t.lookup (n :: l) = some nd' ∧ n :: l <:+ k := by
  induction k generalizing nd with
  | nil => exact absurd (List.suffix_nil.mp hsuffix).symm hne
  | cons a k ih =>
      rcases List.suffix_cons_iff.mp hsuffix with heq | hsuffix
      · exact absurd heq.symm hne
      · by_cases hkl : k = l
        · subst hkl
          exact ⟨a, nd, hk, List.suffix_rfl⟩
        · obtain ⟨n, nd', hn, hbelow⟩ := ih (lookup_parent hk) hsuffix hkl
          exact ⟨n, nd', hn, hbelow.trans (List.suffix_cons a k)⟩

theorem length_le_depth {t : Tree ν α} {l : List ν} {nd : Node ν α} (h : t.lookup l = some nd) :
    l.length ≤ t.depth := by
  have hmem : l.length ∈ t.nodes.map fun p => p.1.length :=
    List.mem_map.mpr ⟨_, lookup_eq_some.mp h, rfl⟩
  unfold depth
  revert hmem
  generalize t.nodes.map (fun p => p.1.length) = lengths
  intro hmem
  induction lengths with
  | nil => cases hmem
  | cons m ms ih =>
      rw [List.foldr_cons]
      rcases List.mem_cons.mp hmem with heq | hmem
      · exact heq ▸ Nat.le_max_left _ _
      · exact (ih hmem).trans (Nat.le_max_right _ _)

/-- The tree without the node at `l`, which stays if it is the root or has entries. -/
def erase (t : Tree ν α) (l : List ν) : Tree ν α :=
  if h : l ≠ [] ∧ t.entries l = [] then
    { nodes := t.nodes.filter fun p => p.1 ≠ l
      nodup := t.nodup.sublist (List.filter_sublist.map _)
      root := by
        rw [List.mem_filter]
        exact ⟨t.root, decide_eq_true h.1.symm⟩
      parent := by
        intro n k nd hmem
        obtain ⟨hmem, -⟩ := List.mem_filter.mp hmem
        rw [List.mem_filter]
        refine ⟨t.parent n k nd hmem, decide_eq_true ?_⟩
        intro hkl
        have hnone := entries_eq_nil.mp h.2 n
        rw [← hkl, lookup_eq_some.mpr hmem] at hnone
        cases hnone }
  else t

theorem lookup_erase {t : Tree ν α} {l : List ν} (hne : l ≠ []) (h : t.entries l = [])
    (k : List ν) : (t.erase l).lookup k = if k = l then none else t.lookup k := by
  refine Option.ext fun nd => ?_
  unfold erase
  rw [dif_pos ⟨hne, h⟩, lookup_eq_some, List.mem_filter, decide_eq_true_eq]
  split
  · rename_i hkl
    exact iff_of_false (fun hmem => hmem.2 hkl) nofun
  · rename_i hkl
    rw [lookup_eq_some]
    exact and_iff_left hkl

/-! ## Walks -/

section

variable {t t' : Tree ν α} {follow follow' : List ν → List (Comp ν) → Visit ν}
  {links : Nat} {cur d : List ν} {cs ds : List (Comp ν)}

theorem walk_eq_steps (t : Tree ν α) (links : Nat) :
    ∃ follow, t.walk links = t.steps follow := by
  cases links <;> exact ⟨_, rfl⟩

theorem steps_dir {n : ν} (h : t.lookup (n :: cur) = some .dir) :
    t.steps follow cur (.down n :: cs) = (t.steps follow (n :: cur) cs).pass (n :: cur) := by
  rw [steps, h]

theorem steps_link {n : ν} {absolute : Bool} {target : List (Comp ν)}
    (h : t.lookup (n :: cur) = some (.link absolute target)) :
    t.steps follow cur (.down n :: cs) =
      (follow (if absolute then [] else cur) (target ++ cs)).follow (n :: cur) := by
  rw [steps, h]

theorem steps_leaf {n : ν} {kind : α} (h : t.lookup (n :: cur) = some (.leaf kind)) :
    t.steps follow cur (.down n :: cs) = .fail := by
  rw [steps, h]

theorem steps_none {n : ν} (h : t.lookup (n :: cur) = none) :
    t.steps follow cur (.down n :: cs) = .fail := by
  rw [steps, h]

/-- What is passed is there. -/
theorem steps_passed
    (hfollow : ∀ cur cs, ∀ l ∈ (follow cur cs).passed, ∃ nd, t.lookup l = some nd) :
    ∀ l ∈ (t.steps follow cur cs).passed, ∃ nd, t.lookup l = some nd := by
  induction cs generalizing cur with
  | nil =>
      intro l hl
      cases hl
  | cons c cs ih =>
      cases c with
      | here => exact ih
      | up => exact ih
      | down n =>
          intro l hl
          cases hn : t.lookup (n :: cur) with
          | none =>
              rw [steps_none hn] at hl
              cases hl
          | some nd =>
              cases nd with
              | dir =>
                  rw [steps_dir hn] at hl
                  rcases List.mem_cons.mp hl with rfl | hl
                  · exact ⟨_, hn⟩
                  · exact ih l hl
              -- what a link leads to is the walk of `follow`
              | link absolute target =>
                  rw [steps_link hn] at hl
                  rcases List.mem_cons.mp hl with rfl | hl
                  · exact ⟨_, hn⟩
                  · exact hfollow _ _ l hl
              | leaf kind =>
                  rw [steps_leaf hn] at hl
                  cases hl

theorem walk_passed : ∀ l ∈ (t.walk links cur cs).passed, ∃ nd, t.lookup l = some nd := by
  induction links generalizing cur cs with
  | zero =>
      refine steps_passed fun cur cs l hl => ?_
      cases hl
  | succ links ih => exact steps_passed fun cur cs => ih

/-- A walk that gets through is repeated where all that it passes is still there. -/
theorem steps_of_passed
    (hfollow : ∀ cur cs, (follow cur cs).dir ≠ none →
      (∀ l ∈ (follow cur cs).passed, t'.lookup l = t.lookup l) → follow' cur cs = follow cur cs)
    (hdir : (t.steps follow cur cs).dir ≠ none)
    (hkeep : ∀ l ∈ (t.steps follow cur cs).passed, t'.lookup l = t.lookup l) :
    t'.steps follow' cur cs = t.steps follow cur cs := by
  induction cs generalizing cur with
  | nil => rfl
  | cons c cs ih =>
      cases c with
      | here => exact ih hdir hkeep
      | up => exact ih hdir hkeep
      | down n =>
          cases hn : t.lookup (n :: cur) with
          | none =>
              rw [steps_none hn] at hdir
              exact absurd rfl hdir
          | some nd =>
              cases nd with
              | dir =>
                  rw [steps_dir hn] at hdir hkeep ⊢
                  rw [steps_dir ((hkeep _ List.mem_cons_self).trans hn),
                    ih hdir fun l hl => hkeep l (List.mem_cons_of_mem _ hl)]
              | link absolute target =>
                  rw [steps_link hn] at hdir hkeep ⊢
                  rw [steps_link ((hkeep _ List.mem_cons_self).trans hn),
                    hfollow _ _ hdir fun l hl => hkeep l (List.mem_cons_of_mem _ hl)]
              | leaf kind =>
                  rw [steps_leaf hn] at hdir
                  exact absurd rfl hdir

theorem walk_of_passed (hdir : (t.walk links cur cs).dir ≠ none)
    (hkeep : ∀ l ∈ (t.walk links cur cs).passed, t'.lookup l = t.lookup l) :
    t'.walk links cur cs = t.walk links cur cs := by
  induction links generalizing cur cs with
  | zero => exact steps_of_passed (fun _ _ hdir => absurd rfl hdir) hdir hkeep
  | succ links ih => exact steps_of_passed (fun _ _ => ih) hdir hkeep

/-- A walk goes on behind the components it got through. -/
theorem steps_append {w : Visit ν} (hw : t.steps follow d ds = w)
    (hfollow : ∀ cur cs, (follow cur cs).dir = some d →
      follow cur (cs ++ ds) = (follow cur cs).append w)
    (hdir : (t.steps follow cur cs).dir = some d) :
    t.steps follow cur (cs ++ ds) = (t.steps follow cur cs).append w := by
  induction cs generalizing cur with
  | nil =>
      cases hdir
      exact hw
  | cons c cs ih =>
      cases c with
      | here => exact ih hdir
      | up => exact ih hdir
      | down n =>
          cases hn : t.lookup (n :: cur) with
          | none =>
              rw [steps_none hn] at hdir
              cases hdir
          | some nd =>
              cases nd with
              | dir =>
                  rw [steps_dir hn] at hdir
                  rw [List.cons_append, steps_dir hn, steps_dir hn, ih hdir]
                  rfl
              | link absolute target =>
                  rw [steps_link hn] at hdir
                  rw [List.cons_append, steps_link hn, steps_link hn, ← List.append_assoc,
                    hfollow _ _ hdir]
                  rfl
              | leaf kind =>
                  rw [steps_leaf hn] at hdir
                  cases hdir

theorem walk_append {w : Visit ν} (hw : ∀ k, t.walk k d ds = w)
    (hdir : (t.walk links cur cs).dir = some d) :
    t.walk links cur (cs ++ ds) = (t.walk links cur cs).append w := by
  induction links generalizing cur cs with
  | zero =>
      refine steps_append (hw 0) (fun _ _ hdir => ?_) hdir
      cases hdir
  | succ links ih => exact steps_append (hw (links + 1)) (fun _ _ => ih) hdir

end

/-! ## Parts -/

/-- `t'` is what is left of `t`. -/
def Part (t' t : Tree ν α) : Prop := ∀ l nd, t'.lookup l = some nd → t.lookup l = some nd

theorem Part.refl (t : Tree ν α) : Part t t := fun _ _ hl => hl

theorem Part.trans {t t' t'' : Tree ν α} (h : Part t'' t') (h' : Part t' t) : Part t'' t :=
  fun l nd hl => h' l nd (h l nd hl)

/-- `v'` stops on the way of `v`, or is all of it. -/
def Early {ν : Type} (v' v : Visit ν) : Prop :=
  v'.followed <+: v.followed ∧ (v'.dir ≠ none → v' = v)

theorem early_fail {ν : Type} (v : Visit ν) : Early .fail v :=
  ⟨List.nil_prefix, fun hdir => absurd rfl hdir⟩

section

variable {t t' : Tree ν α} {links : Nat}

theorem steps_of_part {follow follow' : List ν → List (Comp ν) → Visit ν} (hpart : Part t' t)
    (hfollow : ∀ cur cs, Early (follow' cur cs) (follow cur cs)) (cur : List ν)
    (cs : List (Comp ν)) : Early (t'.steps follow' cur cs) (t.steps follow cur cs) := by
  induction cs generalizing cur with
  | nil => exact ⟨List.prefix_rfl, fun _ => rfl⟩
  | cons c cs ih =>
      cases c with
      | here => exact ih cur
      | up => exact ih cur.tail
      | down n =>
          cases hn : t'.lookup (n :: cur) with
          | none =>
              rw [steps_none hn]
              exact early_fail _
          | some nd =>
              have hn' := hpart _ _ hn
              cases nd with
              | dir =>
                  obtain ⟨hfollowed, hall⟩ := ih (n :: cur)
                  rw [steps_dir hn, steps_dir hn']
                  exact ⟨hfollowed, fun hdir => congrArg _ (hall hdir)⟩
              | link absolute target =>
                  obtain ⟨hfollowed, hall⟩ := hfollow (if absolute then [] else cur) (target ++ cs)
                  rw [steps_link hn, steps_link hn']
                  exact ⟨(List.prefix_cons_inj _).mpr hfollowed, fun hdir => congrArg _ (hall hdir)⟩
              | leaf kind =>
                  rw [steps_leaf hn]
                  exact early_fail _

theorem walk_of_part (hpart : Part t' t) (links : Nat) (cur : List ν) (cs : List (Comp ν)) :
    Early (t'.walk links cur cs) (t.walk links cur cs) := by
  induction links generalizing cur cs with
  | zero => exact steps_of_part hpart (fun _ _ => early_fail _) cur cs
  | succ links ih => exact steps_of_part hpart ih cur cs

/-! What a path names. -/

variable {p : Path ν} {l : List ν} {nd : Node ν α}

theorem find_eq_some : t.find links p = some (l, nd) ↔
    ∃ d, (t.walk links p.start p.dir).dir = some d ∧ l = p.last :: d ∧ t.lookup l = some nd := by
  unfold find
  rw [Option.bind_eq_some_iff]
  refine exists_congr fun d => and_congr_right fun _ => ?_
  rw [Option.map_eq_some_iff]
  constructor
  · rintro ⟨nd', hlookup, heq⟩
    cases heq
    exact ⟨rfl, hlookup⟩
  · rintro ⟨rfl, hlookup⟩
    exact ⟨nd, hlookup, rfl⟩

theorem lookup_of_find (h : t.find links p = some (l, nd)) : t.lookup l = some nd := by
  obtain ⟨d, -, -, hlookup⟩ := find_eq_some.mp h
  exact hlookup

theorem dir_of_find (h : t.find links p = some (l, nd)) :
    (t.walk links p.start p.dir).dir ≠ none := by
  obtain ⟨d, hdir, -, -⟩ := find_eq_some.mp h
  rw [hdir]
  nofun

theorem walk_eq_of_part (hpart : Part t' t) (h : t'.find links p = some (l, nd)) :
    t'.walk links p.start p.dir = t.walk links p.start p.dir :=
  (walk_of_part hpart links p.start p.dir).2 (dir_of_find h)

theorem find_of_part (hpart : Part t' t) (h : t'.find links p = some (l, nd)) :
    t.find links p = some (l, nd) := by
  obtain ⟨d, hdir, hl, hlookup⟩ := find_eq_some.mp h
  exact find_eq_some.mpr ⟨d, walk_eq_of_part hpart h ▸ hdir, hl, hpart _ _ hlookup⟩

theorem find_of_passed (h : t.find links p = some (l, nd))
    (hkeep : ∀ k ∈ (t.walk links p.start p.dir).passed, t'.lookup k = t.lookup k)
    (hl : t'.lookup l = t.lookup l) : t'.find links p = some (l, nd) := by
  obtain ⟨d, hdir, hpath, hlookup⟩ := find_eq_some.mp h
  have hwalk := walk_of_passed (dir_of_find h) hkeep
  exact find_eq_some.mpr ⟨d, hwalk ▸ hdir, hpath, hl.trans hlookup⟩

/-- The way to the entries of a directory. -/
theorem walk_child (h : t.find links p = some (l, .dir)) :
    t.walk links p.start (p.dir ++ [.down p.last]) =
      (t.walk links p.start p.dir).append ⟨some l, [l], []⟩ := by
  obtain ⟨d, hdir, rfl, hlookup⟩ := find_eq_some.mp h
  refine walk_append (fun k => ?_) hdir
  obtain ⟨follow, hfollow⟩ := walk_eq_steps t k
  rw [hfollow, steps_dir hlookup]
  rfl

/-- No way leads through a file. -/
theorem walk_leaf {kind : α} (h : t.find links p = some (l, .leaf kind)) :
    t.walk links p.start (p.dir ++ [.down p.last]) =
      (t.walk links p.start p.dir).append .fail := by
  obtain ⟨d, hdir, rfl, hlookup⟩ := find_eq_some.mp h
  refine walk_append (fun k => ?_) hdir
  obtain ⟨follow, hfollow⟩ := walk_eq_steps t k
  rw [hfollow, steps_leaf hlookup]

theorem find_child (h : t.find links p = some (l, .dir)) {n : ν} {l' : List ν} :
    t.find links (p.child n) = some (l', nd) ↔ l' = n :: l ∧ t.lookup (n :: l) = some nd := by
  have hwalk : (t.walk links (p.child n).start (p.child n).dir).dir = some l := by
    show (t.walk links p.start (p.dir ++ [.down p.last])).dir = some l
    rw [walk_child h]
    rfl
  rw [find_eq_some, hwalk]
  constructor
  · rintro ⟨d, hd, rfl, hlookup⟩
    cases hd
    exact ⟨rfl, hlookup⟩
  · rintro ⟨rfl, hlookup⟩
    exact ⟨l, rfl, rfl, hlookup⟩

end

end Tree

end Gxh.FileTree
