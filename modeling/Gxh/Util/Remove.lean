import Gxh.Util.FileSystem

/-!
# Recursive removal

`FSUtil::Unlink` and `FSUtil::Rm` (`util.cpp`). Which of the two removes an entry is decided by the
directory bit of its mode, which sockets and block devices have as well.

* `rm_cases` — what one call comes to;
* `rm_removes` — in every run only nodes below the path go, none of them a socket or a block
  device, and no other link is followed than the path's own directory part follows.
-/

namespace Gxh.Util

open FileTree

/-- A call that names no path. -/
def Files.counted (s : Files) : Files := { s with calls := s.calls + 1 }

namespace FSUtil

/-- `Unlink`. -/
def unlink (K : Kernel) (p : Path Name) (exist : Bool) (s : Files) : Bool × Files :=
  if exist then K.unlink p s
  else
    match (K.lstat p s).1 with
    | none => (true, (K.lstat p s).2)
    | some _ => K.unlink p (K.lstat p s).2

/-- The loop of `Rm` over what `readdir` gives, which may end early. The result for an entry takes
the place of the one before. -/
def rmEntries (K : Kernel) (rm : Path Name → Files → Option (Bool × Files)) (p : Path Name) :
    List (List UInt8) → Bool → Files → Option (Bool × Files)
  | [], ret, s => some (ret, s.counted)
  | name :: names, ret, s =>
      if K.fault s.calls then some (ret, s.counted)
      else if h : name = dot ∨ name = dotdot then rmEntries K rm p names ret s.counted
      else (rm (p.child ⟨name, not_or.mp h⟩) s.counted).bind fun (ret, s) =>
        rmEntries K rm p names ret s

/-- `Rm`, nested at most so many times. -/
def rm (K : Kernel) : Nat → Path Name → Files → Option (Bool × Files)
  | 0, _, _ => none
  | fuel + 1, p, s =>
      let s₁ := (K.lstat p s).2
      match (K.lstat p s).1 with
      | none => some (true, s₁)
      | some st_mode =>
          if st_mode &&& S_IFDIR = 0 then some (unlink K p false s₁)
          else
            let s₂ := (K.opendir p s₁).2
            match (K.opendir p s₁).1 with
            | none => some (false, s₂)
            | some names =>
                -- `closedir` leaves the files as they are
                (rmEntries K (rm K fuel) p names true s₂).map fun (ret, s₃) =>
                  (if (K.rmdir p s₃).1 then ret else false, (K.rmdir p s₃).2)

/-- The subtree at the path. -/
def Below (t : Tree Name FileType) (p : Path Name) (k : Location) : Prop :=
  ∃ l nd, t.find maxLinks p = some (l, nd) ∧ l <:+ k

/-! ## The branches -/

section

variable {K : Kernel} {p : Path Name} {s s' : Files} {l : Location} {nd : File}

/-- The state behind `lstat` and `opendir`. -/
def entered (p : Path Name) (s : Files) : Files := (s.called (s.way p)).called (s.way p)

/-- `opendir` behind the test of the directory bit. -/
theorem opendir_of_dir_bit (hfind : s.find p = some (l, nd))
    (hbit : mode (K.perm l) nd &&& S_IFDIR ≠ 0) :
    (K.opendir p (s.called (s.way p)) = (none, entered p s) ∧
      (nd = .dir → K.fault (s.calls + 1) = true)) ∨
    (nd = .dir ∧ K.opendir p (s.called (s.way p)) =
      (some (dot :: dotdot :: (s.tree.entries l).map Subtype.val), entered p s)) := by
  have hfind' : (s.called (s.way p)).find p = some (l, nd) := hfind
  rw [ne_eq, mode_and_dir, not_and_or, not_and_or, not_not, not_not, not_not] at hbit
  rcases hbit with rfl | rfl | rfl
  · rw [Kernel.opendir_dir hfind']
    cases hfault : K.fault (s.calls + 1) with
    | true => exact .inl ⟨congrArg (·, _) (if_pos hfault), fun _ => rfl⟩
    | false => exact .inr ⟨rfl, congrArg (·, _) (if_neg (Bool.eq_false_iff.mp hfault))⟩
  · rw [Kernel.opendir_leaf hfind']
    exact .inl ⟨rfl, nofun⟩
  · rw [Kernel.opendir_leaf hfind']
    exact .inl ⟨rfl, nofun⟩

/-- What a run comes to. -/
theorem rm_cases (K : Kernel) (p : Path Name) (s : Files) (fuel : Nat) :
    ((K.fault s.calls = true ∨ s.find p = none) ∧
      rm K (fuel + 1) p s = some (true, s.called (s.way p))) ∨
    ∃ l nd, s.find p = some (l, nd) ∧ K.fault s.calls = false ∧
      ((mode (K.perm l) nd &&& S_IFDIR = 0 ∧
          rm K (fuel + 1) p s = some (unlink K p false (s.called (s.way p)))) ∨
        (mode (K.perm l) nd &&& S_IFDIR ≠ 0 ∧ (nd = .dir → K.fault (s.calls + 1) = true) ∧
          rm K (fuel + 1) p s = some (false, entered p s)) ∨
        (nd = .dir ∧ rm K (fuel + 1) p s =
          (rmEntries K (rm K fuel) p (dot :: dotdot :: (s.tree.entries l).map Subtype.val) true
            (entered p s)).map
          fun (ret, s₃) => (if (K.rmdir p s₃).1 then ret else false, (K.rmdir p s₃).2))) := by
  unfold rm
  rw [Kernel.lstat_files]
  cases hlstat : (K.lstat p s).1 with
  | none => exact .inl ⟨Kernel.lstat_eq_none.mp hlstat, rfl⟩
  | some st_mode =>
      obtain ⟨hfault, l, nd, hfind, rfl⟩ := Kernel.lstat_eq_some.mp hlstat
      refine .inr ⟨l, nd, hfind, hfault, ?_⟩
      dsimp only
      by_cases hbit : mode (K.perm l) nd &&& S_IFDIR = 0
      · rw [if_pos hbit]
        exact .inl ⟨hbit, rfl⟩
      · rw [if_neg hbit]
        refine .inr ?_
        rcases opendir_of_dir_bit hfind hbit with ⟨hopen, hdir⟩ | ⟨hdir, hopen⟩
        · rw [hopen]
          exact .inl ⟨hbit, hdir, rfl⟩
        · rw [hopen]
          exact .inr ⟨hdir, rfl⟩

end

/-! ## What goes -/

/-- What stays although its mode has the directory bit. -/
def ReadsAsDir (nd : File) : Prop := nd = .leaf .socket ∨ nd = .leaf .block

/-- From `s` to `s'` only nodes have gone that are below the path in `t`. -/
structure Removes (t : Tree Name FileType) (p : Path Name) (s s' : Files) : Prop where
  lookup : ∀ k, s'.tree.lookup k = s.tree.lookup k ∨
    (s'.tree.lookup k = none ∧ Below t p k ∧ ∀ nd, s.tree.lookup k = some nd → ¬ ReadsAsDir nd)
  followed : ∀ l ∈ s'.followed, l ∈ s.followed ∨ l ∈ (t.walk maxLinks p.start p.dir).followed

namespace Removes

variable {t : Tree Name FileType} {p : Path Name} {s s₁ s' : Files} {l : Location} {nd : File}

theorem part (h : Removes t p s s') : Tree.Part s'.tree s.tree := by
  intro k nd hk
  rcases h.lookup k with heq | ⟨hnone, -, -⟩
  · exact heq ▸ hk
  · rw [hnone] at hk
    cases hk

theorem trans (h : Removes t p s s₁) (h' : Removes t p s₁ s') : Removes t p s s' := by
  refine ⟨fun k => ?_, fun l hl => ?_⟩
  · rcases h'.lookup k with heq | ⟨hnone, hbelow, hstays⟩
    · rw [heq]
      exact h.lookup k
    · rcases h.lookup k with heq | hgone
      · exact .inr ⟨hnone, hbelow, heq ▸ hstays⟩
      · exact .inr ⟨hnone, hgone.2⟩
  · rcases h'.followed l hl with hl | hl
    · exact h.followed l hl
    · exact .inr hl

theorem counted (t : Tree Name FileType) (p : Path Name) (s : Files) :
    Removes t p s s.counted :=
  ⟨fun _ => .inl rfl, fun _ hl => .inl hl⟩

/-- A way in what is left follows no other links. -/
theorem mem_followed (hpart : Tree.Part s.tree t) (hl : l ∈ (s.called (s.way p)).followed) :
    l ∈ s.followed ∨ l ∈ (t.walk maxLinks p.start p.dir).followed := by
  refine (List.mem_append.mp hl).imp_right fun hl => ?_
  exact (Tree.walk_of_part hpart _ _ _).1.subset hl

theorem called (hpart : Tree.Part s.tree t) : Removes t p s (s.called (s.way p)) :=
  ⟨fun _ => .inl rfl, fun _ => mem_followed hpart⟩

theorem erase (hpart : Tree.Part s.tree t) (hfind : s.find p = some (l, nd))
    (hentries : s.tree.entries l = []) (hnd : ¬ ReadsAsDir nd) :
    Removes t p s { s.called (s.way p) with tree := s.tree.erase l } := by
  refine ⟨fun k => ?_, fun _ => mem_followed hpart⟩
  show (s.tree.erase l).lookup k = _ ∨ (s.tree.erase l).lookup k = _ ∧ _
  rw [Tree.lookup_erase (ne_root_of_find hfind) hentries]
  by_cases hkl : k = l
  · rw [if_pos hkl]
    refine .inr ⟨rfl, ⟨l, nd, Tree.find_of_part hpart hfind, hkl ▸ List.suffix_rfl⟩, ?_⟩
    intro nd' hk
    rw [hkl, Tree.lookup_of_find hfind] at hk
    exact Option.some.inj hk ▸ hnd
  · rw [if_neg hkl]
    exact .inl rfl

/-- What is below an entry is below the directory, and the way to it follows no other links. -/
theorem of_child {n : Name} (hfind : t.find maxLinks p = some (l, .dir))
    (h : Removes t (p.child n) s s') : Removes t p s s' := by
  refine ⟨fun k => (h.lookup k).imp_right ?_, fun k hk => (h.followed k hk).imp_right ?_⟩
  · rintro ⟨hnone, ⟨l', nd, hchild, hsuffix⟩, hstays⟩
    obtain ⟨rfl, -⟩ := (Tree.find_child hfind).mp hchild
    exact ⟨hnone, ⟨l, .dir, hfind, (List.suffix_cons n l).trans hsuffix⟩, hstays⟩
  · intro hk
    have hway : (t.walk maxLinks (p.child n).start (p.child n).dir).followed =
        (t.walk maxLinks p.start p.dir).followed := by
      show (t.walk maxLinks p.start (p.dir ++ [.down p.last])).followed = _
      rw [Tree.walk_child hfind]
      exact List.append_nil _
    exact hway ▸ hk

end Removes

section

variable {K : Kernel} {t : Tree Name FileType} {p : Path Name} {s s' : Files} {l : Location}
  {nd : File} {ret ret' : Bool}

theorem sysUnlink_removes (hpart : Tree.Part s.tree t)
    (hstays : ∀ l nd, s.find p = some (l, nd) → ¬ ReadsAsDir nd) :
    Removes t p s (K.unlink p s).2 := by
  rcases K.unlink_cases (p := p) (s := s) with ⟨-, hs', -⟩ | ⟨-, l, nd, hfind, hdir, hs'⟩
  · exact hs' ▸ .called hpart
  · rw [hs']
    exact .erase hpart hfind (entries_of_not_dir (Tree.lookup_of_find hfind) hdir)
      (hstays l nd hfind)

theorem rmdir_removes (hpart : Tree.Part s.tree t) : Removes t p s (K.rmdir p s).2 := by
  rcases K.rmdir_cases (p := p) (s := s) with ⟨-, hs', -⟩ | ⟨-, l, hfind, hentries, hs'⟩
  · exact hs' ▸ .called hpart
  · rw [hs']
    refine .erase hpart hfind hentries ?_
    rintro (h | h) <;> cases h

theorem unlink_removes (hpart : Tree.Part s.tree t)
    (hstays : ∀ l nd, s.find p = some (l, nd) → ¬ ReadsAsDir nd) :
    Removes t p s (unlink K p false s).2 := by
  unfold unlink
  rw [if_neg Bool.false_ne_true]
  cases (K.lstat p s).1 with
  | none => exact .called hpart
  | some st_mode =>
      have hunlink : Removes t p (s.called (s.way p)) (K.unlink p (s.called (s.way p))).2 :=
        sysUnlink_removes hpart hstays
      exact (Removes.called hpart).trans hunlink

theorem rmEntries_removes {rm : Path Name → Files → Option (Bool × Files)}
    (hrm : ∀ {p s s' ret}, Tree.Part s.tree t → rm p s = some (ret, s') → Removes t p s s')
    (hfind : t.find maxLinks p = some (l, .dir)) {names : List (List UInt8)}
    (hpart : Tree.Part s.tree t) (h : rmEntries K rm p names ret s = some (ret', s')) :
    Removes t p s s' := by
  induction names generalizing ret s with
  | nil =>
      cases h
      exact .counted t p s
  | cons name names ih =>
      rw [rmEntries] at h
      split at h
      · cases h
        exact .counted t p s
      · split at h
        · exact (Removes.counted t p s).trans (ih hpart h)
        · obtain ⟨⟨ret₁, s₁⟩, hchild, h⟩ := Option.bind_eq_some_iff.mp h
          have hpart' : Tree.Part s.counted.tree t := hpart
          have hfirst : Removes t p s.counted s₁ := .of_child hfind (hrm hpart' hchild)
          have hrest : Removes t p s₁ s' := ih (hfirst.part.trans hpart) h
          exact (Removes.counted t p s).trans (hfirst.trans hrest)

theorem rm_removes {fuel : Nat} (hpart : Tree.Part s.tree t)
    (h : rm K fuel p s = some (ret, s')) : Removes t p s s' := by
  induction fuel generalizing p s ret s' with
  | zero => cases h
  | succ fuel ih =>
      have hcalled : Removes t p s (s.called (s.way p)) := .called hpart
      have hentered : Removes t p s (entered p s) := hcalled.trans (.called hpart)
      rcases rm_cases K p s fuel with ⟨-, hrm⟩ | ⟨l, nd, hfind, -, hrm⟩
      · rw [hrm] at h
        cases h
        exact hcalled
      · rcases hrm with ⟨hbit, hrm⟩ | ⟨-, -, hrm⟩ | ⟨rfl, hrm⟩
        · rw [hrm] at h
          obtain ⟨rfl, rfl⟩ := Prod.mk.inj (Option.some.inj h)
          have hunlink : Removes t p (s.called (s.way p))
              (unlink K p false (s.called (s.way p))).2 := by
            refine unlink_removes hpart fun l' nd' hfind' => ?_
            obtain ⟨rfl, rfl⟩ := find_unique hfind hfind'
            rw [mode_and_dir] at hbit
            exact not_or.mpr hbit.2
          exact hcalled.trans hunlink
        · rw [hrm] at h
          cases h
          exact hentered
        · rw [hrm] at h
          obtain ⟨⟨ret₁, s₁⟩, hloop, hend⟩ := Option.map_eq_some_iff.mp h
          cases hend
          have hentries : Removes t p (entered p s) s₁ :=
            rmEntries_removes ih (Tree.find_of_part hpart hfind) hpart hloop
          have hthrough := hentered.trans hentries
          exact hthrough.trans (rmdir_removes (hthrough.part.trans hpart))

end

end FSUtil

end Gxh.Util
