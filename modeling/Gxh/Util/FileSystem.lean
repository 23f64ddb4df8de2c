import Gxh.Lib.FileTree

/-!
# System calls on files

The calls that `FSUtil` (`util.cpp`) makes, over a tree of files. A call does what its documentation
says where its precondition holds and fails otherwise; any call may also fail without a reason of
that kind (`Kernel.fault`), and then it does nothing.

The last component of a path is the name of an entry: `unlink` and `rmdir` refuse the others.
-/

namespace Gxh.Util

open FileTree

/-- The types of `stat` besides directories and symbolic links. -/
inductive FileType
  | regular
  | socket
  | block
  | character
  | fifo

def S_IFSOCK : BitVec 32 := 0o140000
def S_IFLNK : BitVec 32 := 0o120000
def S_IFREG : BitVec 32 := 0o100000
def S_IFBLK : BitVec 32 := 0o060000
def S_IFDIR : BitVec 32 := 0o040000
def S_IFCHR : BitVec 32 := 0o020000
def S_IFIFO : BitVec 32 := 0o010000

/-- `"."`. -/
def dot : List UInt8 := [46]

/-- `".."`. -/
def dotdot : List UInt8 := [46, 46]

/-- The name of an entry. That there is no slash in it is not needed. -/
abbrev Name := { name : List UInt8 // name ≠ dot ∧ name ≠ dotdot }

abbrev Location := List Name

abbrev File := Node Name FileType

def fileType : File → BitVec 32
  | .dir => S_IFDIR
  | .link _ _ => S_IFLNK
  | .leaf .regular => S_IFREG
  | .leaf .socket => S_IFSOCK
  | .leaf .block => S_IFBLK
  | .leaf .character => S_IFCHR
  | .leaf .fifo => S_IFIFO

/-- `st_mode`. -/
def mode (perm : BitVec 12) (nd : File) : BitVec 32 := fileType nd ||| perm.setWidth 32

structure Kernel where
  /-- The calls, by their number, that fail although their precondition holds. -/
  fault : Nat → Bool
  perm : Location → BitVec 12

/-- The files, with the number of calls so far and the links that their paths have followed. -/
structure Files where
  tree : Tree Name FileType
  calls : Nat
  followed : List Location

/-- After so many links a call gives up. -/
def maxLinks : Nat := 40

def Files.find (s : Files) (p : Path Name) : Option (Location × File) := s.tree.find maxLinks p

/-- The way to the directory of an entry. -/
def Files.way (s : Files) (p : Path Name) : Visit Name := s.tree.walk maxLinks p.start p.dir

def Files.called (s : Files) (way : Visit Name) : Files :=
  { s with calls := s.calls + 1, followed := s.followed ++ way.followed }

namespace Kernel

/-- `lstat`: the `st_mode`. -/
def lstat (K : Kernel) (p : Path Name) (s : Files) : Option (BitVec 32) × Files :=
  (if K.fault s.calls then none else (s.find p).map fun (l, nd) => mode (K.perm l) nd,
    s.called (s.way p))

/-- `unlink`. -/
def unlink (K : Kernel) (p : Path Name) (s : Files) : Bool × Files :=
  let s' := s.called (s.way p)
  if K.fault s.calls then (false, s')
  else
    match s.find p with
    | none => (false, s')
    | some (_, .dir) => (false, s')
    | some (l, .link _ _) => (true, { s' with tree := s.tree.erase l })
    | some (l, .leaf _) => (true, { s' with tree := s.tree.erase l })

/-- `rmdir`. -/
def rmdir (K : Kernel) (p : Path Name) (s : Files) : Bool × Files :=
  let s' := s.called (s.way p)
  if K.fault s.calls then (false, s')
  else
    match s.find p with
    | some (l, .dir) =>
        if s.tree.entries l = [] then (true, { s' with tree := s.tree.erase l }) else (false, s')
    | _ => (false, s')

/-- `opendir`, with what `readdir` is to give. A link in the last place is followed. -/
def opendir (K : Kernel) (p : Path Name) (s : Files) : Option (List (List UInt8)) × Files :=
  let way := s.tree.walk maxLinks p.start (p.dir ++ [.down p.last])
  (if K.fault s.calls then none
    else way.dir.map fun l => dot :: dotdot :: (s.tree.entries l).map Subtype.val,
    s.called way)

end Kernel

/-! ## File types -/

theorem perm_and_dir (perm : BitVec 12) : perm.setWidth 32 &&& S_IFDIR = 0#32 := by
  refine BitVec.eq_of_getLsbD_eq fun i hi => ?_
  rw [BitVec.getLsbD_and, BitVec.getLsbD_setWidth, BitVec.getLsbD_zero]
  by_cases hperm : i < 12
  · have hlow : ∀ j < 12, S_IFDIR.getLsbD j = false := by decide
    rw [hlow i hperm, Bool.and_false]
  · rw [BitVec.getLsbD_of_ge perm i (Nat.le_of_not_lt hperm), Bool.and_false, Bool.false_and]

/-- The directory bit is a part of the types of sockets and of block devices too. -/
theorem mode_and_dir (perm : BitVec 12) (nd : File) :
    mode perm nd &&& S_IFDIR = 0 ↔ nd ≠ .dir ∧ nd ≠ .leaf .socket ∧ nd ≠ .leaf .block := by
  rw [mode, BitVec.and_comm, BitVec.and_or_distrib_left, BitVec.and_comm _ (perm.setWidth 32),
    perm_and_dir, BitVec.or_zero]
  cases nd with
  | dir => exact iff_of_false (by decide) fun h => h.1 rfl
  | link absolute target =>
      have hlink : S_IFDIR &&& S_IFLNK = 0 := by decide
      exact iff_of_true hlink ⟨nofun, nofun, nofun⟩
  | leaf kind =>
      cases kind with
      | regular => exact iff_of_true (by decide) ⟨nofun, nofun, nofun⟩
      | socket => exact iff_of_false (by decide) fun h => h.2.1 rfl
      | block => exact iff_of_false (by decide) fun h => h.2.2 rfl
      | character => exact iff_of_true (by decide) ⟨nofun, nofun, nofun⟩
      | fifo => exact iff_of_true (by decide) ⟨nofun, nofun, nofun⟩

/-! ## What the calls do -/

section

variable {K : Kernel} {p : Path Name} {s : Files} {l : Location} {nd : File}

theorem find_eq_some : s.find p = some (l, nd) ↔
    ∃ d, (s.way p).dir = some d ∧ l = p.last :: d ∧ s.tree.lookup l = some nd :=
  Tree.find_eq_some

theorem find_unique {l' : Location} {nd' : File} (h : s.find p = some (l, nd))
    (h' : s.find p = some (l', nd')) : l = l' ∧ nd = nd' :=
  Prod.mk.inj (Option.some.inj (h.symm.trans h'))

theorem ne_root_of_find (h : s.find p = some (l, nd)) : l ≠ [] := by
  obtain ⟨d, -, rfl, -⟩ := find_eq_some.mp h
  exact List.cons_ne_nil _ _

/-- What is not a directory has no entries. -/
theorem entries_of_not_dir (h : s.tree.lookup l = some nd) (hdir : nd ≠ .dir) :
    s.tree.entries l = [] := by
  rw [Tree.entries_eq_nil]
  intro n
  rw [Option.eq_none_iff_forall_ne_some]
  intro nd' hn
  rw [Tree.lookup_parent hn] at h
  exact hdir (Option.some.inj h).symm

namespace Kernel

theorem lstat_eq_some {m : BitVec 32} : (K.lstat p s).1 = some m ↔
    K.fault s.calls = false ∧ ∃ l nd, s.find p = some (l, nd) ∧ mode (K.perm l) nd = m := by
  unfold lstat
  cases hfault : K.fault s.calls with
  | true => exact iff_of_false nofun nofun
  | false =>
      show (s.find p).map _ = _ ↔ _
      rw [Option.map_eq_some_iff, Prod.exists]
      exact (and_iff_right rfl).symm

theorem lstat_eq_none : (K.lstat p s).1 = none ↔
    K.fault s.calls = true ∨ s.find p = none := by
  unfold lstat
  cases hfault : K.fault s.calls with
  | true => exact iff_of_true rfl (.inl rfl)
  | false =>
      show (s.find p).map _ = _ ↔ _
      rw [Option.map_eq_none_iff]
      exact (or_iff_right nofun).symm

/-- Every call counts, and its way is followed. -/
theorem lstat_files : (K.lstat p s).2 = s.called (s.way p) := rfl

/-- `unlink` fails and changes nothing, or takes a node away that is not a directory. -/
theorem unlink_cases :
    ((K.unlink p s).1 = false ∧ (K.unlink p s).2 = s.called (s.way p) ∧
      (K.fault s.calls = false → ∀ l nd, s.find p = some (l, nd) → nd = .dir)) ∨
    ((K.unlink p s).1 = true ∧ ∃ l nd, s.find p = some (l, nd) ∧ nd ≠ .dir ∧
      (K.unlink p s).2 = { s.called (s.way p) with tree := s.tree.erase l }) := by
  unfold unlink
  cases hfault : K.fault s.calls with
  | true => exact .inl ⟨rfl, rfl, nofun⟩
  | false =>
      cases hfind : s.find p with
      | none => exact .inl ⟨rfl, rfl, nofun⟩
      | some found =>
          obtain ⟨l, nd⟩ := found
          cases nd with
          | dir =>
              refine .inl ⟨rfl, rfl, fun _ l' nd' h => ?_⟩
              cases h
              rfl
          | link absolute target => exact .inr ⟨rfl, l, _, rfl, nofun, rfl⟩
          | leaf kind => exact .inr ⟨rfl, l, _, rfl, nofun, rfl⟩

/-- `rmdir` fails and changes nothing, or takes a directory without entries away. -/
theorem rmdir_cases :
    ((K.rmdir p s).1 = false ∧ (K.rmdir p s).2 = s.called (s.way p) ∧
      (K.fault s.calls = false → ∀ l, s.find p = some (l, .dir) → s.tree.entries l ≠ [])) ∨
    ((K.rmdir p s).1 = true ∧ ∃ l, s.find p = some (l, .dir) ∧ s.tree.entries l = [] ∧
      (K.rmdir p s).2 = { s.called (s.way p) with tree := s.tree.erase l }) := by
  unfold rmdir
  cases hfault : K.fault s.calls with
  | true => exact .inl ⟨rfl, rfl, nofun⟩
  | false =>
      cases hfind : s.find p with
      | none => exact .inl ⟨rfl, rfl, nofun⟩
      | some found =>
          obtain ⟨l, nd⟩ := found
          cases nd with
          | dir =>
              by_cases hentries : s.tree.entries l = []
              · refine .inr ?_
                simp only [hentries, if_true]
                exact ⟨rfl, l, rfl, hentries, rfl⟩
              · refine .inl ?_
                simp only [hentries, if_false]
                refine ⟨rfl, rfl, fun _ l' h => ?_⟩
                cases h
                exact hentries
          | link absolute target => exact .inl ⟨rfl, rfl, nofun⟩
          | leaf kind => exact .inl ⟨rfl, rfl, nofun⟩

/-- The last component of the way to the entries is no link. -/
theorem called_append {v w : Visit Name} (h : w.followed = []) :
    s.called (v.append w) = s.called v := by
  have hfollowed : (v.append w).followed = v.followed := by
    show v.followed ++ w.followed = _
    rw [h, List.append_nil]
  rw [Files.called, hfollowed]
  rfl

theorem opendir_dir (h : s.find p = some (l, .dir)) :
    K.opendir p s = (if K.fault s.calls then none
      else some (dot :: dotdot :: (s.tree.entries l).map Subtype.val), s.called (s.way p)) := by
  unfold opendir
  rw [Tree.walk_child h]
  show (_, s.called _) = _
  rw [called_append rfl]
  rfl

theorem opendir_leaf {kind : FileType} (h : s.find p = some (l, .leaf kind)) :
    K.opendir p s = (none, s.called (s.way p)) := by
  unfold opendir
  rw [Tree.walk_leaf h]
  show (if K.fault s.calls then none else none, s.called _) = _
  rw [ite_self, called_append rfl]
  rfl

end Kernel

end

end Gxh.Util
