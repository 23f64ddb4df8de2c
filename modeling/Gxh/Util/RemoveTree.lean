import Gxh.Util.Remove

/-!
# Removal of a whole tree

* `rm_total` — `Rm` comes to an end in every tree;
* `rm_plain` — if no call fails by itself, everything below the path goes;
* `rm_gone` — nothing is left after a result of true;
* `rm_complete_iff` — the first needs that the directory bit is right for everything below the path
  and that the path does not lead through it, the second that no `lstat` of the path fails.
-/

namespace Gxh.Util.FSUtil

open FileTree

structure Complete (p : Path Name) (s s' : Files) (ret : Bool) : Prop where
  returns : ret = true
  gone : ∀ k, Below s.tree p k → s'.tree.lookup k = none
  kept : ∀ k, ¬ Below s.tree p k → s'.tree.lookup k = s.tree.lookup k
  followed : ∀ l ∈ s'.followed, l ∈ s.followed ∨ l ∈ (s.way p).followed

/-- No socket and no block device is below the path, and the way to it does not lead through what
is to go. -/
def Plain (s : Files) (p : Path Name) : Prop :=
  ∀ l nd, s.find p = some (l, nd) →
    (∀ k, l <:+ k → s.tree.lookup k ≠ some (.leaf .socket) ∧ s.tree.lookup k ≠ some (.leaf .block)) ∧
    ∀ k ∈ (s.way p).passed, l <:+ k → k = l

/-- `lstat` does not fail on what the path names: the one of `Rm`, nor the one of `Unlink` behind
it. -/
def Seen (K : Kernel) (p : Path Name) (s : Files) : Prop :=
  ∀ l nd, s.find p = some (l, nd) → K.fault s.calls = false ∧
    (mode (K.perm l) nd &&& S_IFDIR = 0 → K.fault (s.calls + 1) = false)

/-! ## The end of a run -/

section

variable {K : Kernel} {t : Tree Name FileType} {p : Path Name} {s s' : Files} {l : Location}
  {nd : File} {ret ret' : Bool}

theorem rmEntries_total {rm : Path Name → Files → Option (Bool × Files)}
    (hrm : ∀ {p s}, Tree.Part s.tree t →
      (∀ l' nd, s.find p = some (l', nd) → l'.length = l.length + 1) → ∃ r, rm p s = some r)
    (hremoves : ∀ {p s s' ret}, Tree.Part s.tree t → rm p s = some (ret, s') → Removes t p s s')
    (hfind : t.find maxLinks p = some (l, .dir)) (hpart : Tree.Part s.tree t)
    (names : List (List UInt8)) (ret : Bool) : ∃ r, rmEntries K rm p names ret s = some r := by
  induction names generalizing ret s with
  | nil => exact ⟨_, rfl⟩
  | cons name names ih =>
      have hpart' : Tree.Part s.counted.tree t := hpart
      rw [rmEntries]
      split
      · exact ⟨_, rfl⟩
      · split
        · exact ih hpart' ret
        · rename_i hname
          obtain ⟨⟨ret₁, s₁⟩, hchild⟩ : ∃ r, rm (p.child ⟨name, not_or.mp hname⟩) s.counted =
              some r := by
            refine hrm hpart' fun l' nd hfind' => ?_
            obtain ⟨rfl, -⟩ := (Tree.find_child hfind).mp (Tree.find_of_part hpart hfind')
            rfl
          obtain ⟨r, hr⟩ := ih ((hremoves hpart' hchild).part.trans hpart) ret₁
          exact ⟨r, Option.bind_eq_some_iff.mpr ⟨_, hchild, hr⟩⟩

/-- A run nests at most as often as the tree is deep below the path. -/
theorem rm_total {fuel depth : Nat} (hdepth : ∀ k nd, s.tree.lookup k = some nd → k.length ≤ depth)
    (hpos : 0 < fuel) (hfuel : ∀ l nd, s.find p = some (l, nd) → depth + 1 < l.length + fuel) :
    ∃ r, rm K fuel p s = some r := by
  induction fuel generalizing p s with
  | zero => exact absurd hpos (Nat.lt_irrefl 0)
  | succ fuel ih =>
      rcases rm_cases K p s fuel with ⟨-, hrm⟩ | ⟨l, nd, hfind, -, hrm⟩
      · exact ⟨_, hrm⟩
      · rcases hrm with ⟨-, hrm⟩ | ⟨-, -, hrm⟩ | ⟨rfl, hrm⟩
        · exact ⟨_, hrm⟩
        · exact ⟨_, hrm⟩
        · have hlength := hdepth l _ (Tree.lookup_of_find hfind)
          have hleft := hfuel l _ hfind
          have hentered : Tree.Part (entered p s).tree s.tree := Tree.Part.refl _
          obtain ⟨r, hr⟩ : ∃ r, rmEntries K (rm K fuel) p
              (dot :: dotdot :: (s.tree.entries l).map Subtype.val) true (entered p s) = some r := by
            refine rmEntries_total (fun hpart hchild => ?_) rm_removes hfind hentered _ _
            refine ih (fun k nd hk => hdepth k nd (hpart k nd hk)) (by omega) ?_
            intro l' nd hfind'
            have hlength' := hchild l' nd hfind'
            omega
          exact ⟨_, hrm.trans (congrArg _ hr)⟩

end

/-! ## After a result of true -/

section

variable {K : Kernel} {p : Path Name} {s s' : Files} {l : Location} {nd : File} {fuel : Nat}

theorem find_erase (hfind : s.find p = some (l, nd)) (hentries : s.tree.entries l = []) :
    (s.tree.erase l).find maxLinks p = none := by
  have herase := Tree.lookup_erase (ne_root_of_find hfind) hentries
  have hpart : Tree.Part (s.tree.erase l) s.tree := by
    intro k nd' hk
    rw [herase] at hk
    split at hk
    · cases hk
    · exact hk
  rw [Option.eq_none_iff_forall_ne_some]
  rintro ⟨l', nd'⟩ hfind'
  obtain ⟨rfl, -⟩ := find_unique (Tree.find_of_part hpart hfind') hfind
  have hleft := Tree.lookup_of_find hfind'
  rw [herase, if_pos rfl] at hleft
  cases hleft

theorem erase_below {k : Location} (hfind : s.find p = some (l, nd))
    (hentries : s.tree.entries l = []) (hk : l <:+ k) : (s.tree.erase l).lookup k = none := by
  rw [Tree.lookup_erase (ne_root_of_find hfind) hentries]
  split
  · rfl
  · rename_i hne
    rw [Option.eq_none_iff_forall_ne_some]
    intro nd' hlookup
    obtain ⟨n, nd'', hn, -⟩ := Tree.exists_entry hlookup hk hne
    rw [Tree.entries_eq_nil.mp hentries n] at hn
    cases hn

/-- `Unlink` behind an `lstat`, if its own `lstat` does not fail. -/
theorem unlink_gone (hfind : s.find p = some (l, nd)) (hfault : K.fault s.calls = false)
    (h : (unlink K p false s).1 = true) : (unlink K p false s).2.find p = none := by
  have hlstat : (K.lstat p s).1 = some (mode (K.perm l) nd) :=
    Kernel.lstat_eq_some.mpr ⟨hfault, l, nd, hfind, rfl⟩
  unfold unlink at h ⊢
  rw [if_neg Bool.false_ne_true] at h ⊢
  rw [hlstat] at h ⊢
  dsimp only at h ⊢
  rcases K.unlink_cases (p := p) (s := (K.lstat p s).2) with
    ⟨hfalse, -, -⟩ | ⟨-, l', nd', hfind', hdir, hs'⟩
  · rw [hfalse] at h
    cases h
  · rw [hs']
    exact find_erase hfind' (entries_of_not_dir (Tree.lookup_of_find hfind') hdir)

/-- The last `rmdir` of a run on a directory. -/
theorem exists_rmdir (hfind : s.find p = some (l, .dir)) (hfault : K.fault s.calls = false)
    (h : rm K (fuel + 1) p s = some (true, s')) :
    ∃ s₁, Removes s.tree p s s₁ ∧ ∃ l₁, s₁.find p = some (l₁, .dir) ∧
      s₁.tree.entries l₁ = [] ∧ s'.tree = s₁.tree.erase l₁ := by
  rcases rm_cases K p s fuel with ⟨hnone | hnone, -⟩ | ⟨l', nd, hfind', -, hrm⟩
  · rw [hfault] at hnone
    cases hnone
  · rw [hfind] at hnone
    cases hnone
  · obtain ⟨rfl, rfl⟩ := find_unique hfind hfind'
    rcases hrm with ⟨hbit, -⟩ | ⟨-, -, hrm⟩ | ⟨-, hrm⟩
    · rw [mode_and_dir] at hbit
      exact absurd rfl hbit.1
    · rw [hrm] at h
      cases h
    · rw [hrm] at h
      obtain ⟨⟨ret₁, s₁⟩, hloop, hend⟩ := Option.map_eq_some_iff.mp h
      have hentered : Removes s.tree p s (entered p s) :=
        (Removes.called (Tree.Part.refl _)).trans (.called (Tree.Part.refl _))
      have hremoves := hentered.trans
        (rmEntries_removes rm_removes hfind hentered.part hloop)
      obtain ⟨hret, rfl⟩ := Prod.mk.inj hend
      rcases K.rmdir_cases (p := p) (s := s₁) with
        ⟨hfalse, -, -⟩ | ⟨-, l₁, hfind₁, hentries, hs'⟩
      · rw [hfalse] at hret
        cases hret
      · exact ⟨s₁, hremoves, l₁, hfind₁, hentries, congrArg Files.tree hs'⟩

theorem rm_gone (hseen : Seen K p s) (h : rm K (fuel + 1) p s = some (true, s')) :
    s'.find p = none := by
  rcases rm_cases K p s fuel with ⟨hnone, hrm⟩ | ⟨l, nd, hfind, hfault, hrm⟩
  · obtain ⟨-, rfl⟩ := Prod.mk.inj (Option.some.inj (hrm.symm.trans h))
    rw [Option.eq_none_iff_forall_ne_some]
    rintro ⟨l, nd⟩ hfind
    have hfind' : s.find p = some (l, nd) := hfind
    rw [hfind', (hseen l nd hfind').1] at hnone
    rcases hnone with hnone | hnone <;> cases hnone
  · rcases hrm with ⟨hbit, hrm⟩ | ⟨-, -, hrm⟩ | ⟨rfl, -⟩
    · have hunlink := Option.some.inj (hrm.symm.trans h)
      have hfind' : (s.called (s.way p)).find p = some (l, nd) := hfind
      have hgone := unlink_gone hfind' ((hseen l nd hfind).2 hbit) (by rw [hunlink])
      rwa [hunlink] at hgone
    · rw [hrm] at h
      cases h
    · obtain ⟨s₁, -, l₁, hfind₁, hentries, hs'⟩ := exists_rmdir hfind hfault h
      have hgone := find_erase hfind₁ hentries
      rwa [← hs'] at hgone

/-- Where an `lstat` fails on what is there the result is true and all of it is left. -/
theorem rm_left (hseen : ¬ Seen K p s) :
    ∃ s', rm K (fuel + 1) p s = some (true, s') ∧ s'.find p ≠ none := by
  obtain ⟨l, nd, hfind, hfails⟩ : ∃ l nd, s.find p = some (l, nd) ∧ ¬ (K.fault s.calls = false ∧
      (mode (K.perm l) nd &&& S_IFDIR = 0 → K.fault (s.calls + 1) = false)) := by
    by_contra hall
    refine hseen fun l nd hfind => ?_
    by_contra hfails
    exact hall ⟨l, nd, hfind, hfails⟩
  have hthere : s.find p ≠ none := by
    rw [hfind]
    nofun
  rcases rm_cases K p s fuel with ⟨-, hrm⟩ | ⟨l', nd', hfind', hfault, hrm⟩
  · exact ⟨_, hrm, hthere⟩
  · obtain ⟨rfl, rfl⟩ := find_unique hfind hfind'
    obtain ⟨hbit, hbehind⟩ := Classical.not_imp.mp fun h => hfails ⟨hfault, h⟩
    rcases hrm with ⟨-, hrm⟩ | ⟨hdir, -⟩ | ⟨rfl, -⟩
    · have hlstat : (K.lstat p (s.called (s.way p))).1 = none :=
        Kernel.lstat_eq_none.mpr (.inl (Bool.of_not_eq_false hbehind))
      refine ⟨entered p s, hrm.trans ?_, hthere⟩
      unfold unlink
      rw [if_neg Bool.false_ne_true, hlstat]
      rfl
    · exact absurd hbit hdir
    · rw [mode_and_dir] at hbit
      exact absurd rfl hbit.1

/-! ## Runs in which no call fails by itself -/

/-- Nothing below an entry is passed on the way to it, and the directory is not below it. -/
theorem not_below_child {n : Name} {l k : Location} (h : l <:+ k → k = l) : ¬ n :: l <:+ k := by
  intro hsuffix
  have hkl := h ((List.suffix_cons n l).trans hsuffix)
  have hlen := hsuffix.length_le
  rw [hkl, List.length_cons] at hlen
  omega

theorem Plain.child (hplain : Plain s p) (hfind : s.find p = some (l, .dir)) (n : Name) :
    Plain s (p.child n) := by
  obtain ⟨hkinds, hway⟩ := hplain l _ hfind
  intro l' nd hchild
  obtain ⟨rfl, -⟩ := (Tree.find_child hfind).mp hchild
  refine ⟨fun k hk => hkinds k ((List.suffix_cons n l).trans hk), fun k hk hsuffix => ?_⟩
  have hpassed : (s.way (p.child n)).passed = (s.way p).passed ++ [l] := by
    show (s.tree.walk maxLinks p.start (p.dir ++ [.down p.last])).passed = _
    rw [Tree.walk_child hfind]
    rfl
  rw [hpassed] at hk
  rcases List.mem_append.mp hk with hk | hk
  · exact absurd hsuffix (not_below_child (hway k hk))
  · exact absurd hsuffix (not_below_child fun _ => List.mem_singleton.mp hk)

/-- The removal of an entry leaves the directory, and the way to it. -/
theorem kept_of_child {n : Name} (hplain : Plain s p) (hfind : s.find p = some (l, .dir))
    (h : Removes s.tree (p.child n) s s') : s'.find p = some (l, .dir) ∧ s'.way p = s.way p := by
  have hkeep : ∀ k, (l <:+ k → k = l) → s'.tree.lookup k = s.tree.lookup k := by
    intro k hk
    rcases h.lookup k with heq | ⟨-, ⟨l', nd, hchild, hsuffix⟩, -⟩
    · exact heq
    · obtain ⟨rfl, -⟩ := (Tree.find_child hfind).mp hchild
      exact absurd hsuffix (not_below_child hk)
  have hway : ∀ k ∈ (s.way p).passed, s'.tree.lookup k = s.tree.lookup k :=
    fun k hk => hkeep k ((hplain l _ hfind).2 k hk)
  exact ⟨Tree.find_of_passed hfind hway (hkeep l fun _ => rfl),
    Tree.walk_of_passed (Tree.dir_of_find hfind) hway⟩

theorem Plain.kept (hplain : Plain s p) (hfind : s.find p = some (l, .dir))
    (hpart : Tree.Part s'.tree s.tree) (hfind' : s'.find p = some (l, .dir))
    (hway : s'.way p = s.way p) : Plain s' p := by
  obtain ⟨hkinds, hpassed⟩ := hplain l _ hfind
  intro l' nd hl'
  obtain ⟨rfl, -⟩ := find_unique hfind' hl'
  refine ⟨fun k hk => ⟨fun hlookup => ?_, fun hlookup => ?_⟩, hway ▸ hpassed⟩
  · exact (hkinds k hk).1 (hpart _ _ hlookup)
  · exact (hkinds k hk).2 (hpart _ _ hlookup)

/-- All entries go that the loop comes to. -/
theorem rmEntries_plain {rm : Path Name → Files → Option (Bool × Files)}
    (hK : ∀ k, K.fault k = false)
    (hremoves : ∀ {p t s s' ret}, Tree.Part s.tree t → rm p s = some (ret, s') →
      Removes t p s s')
    (hrm : ∀ {p s s' ret}, Plain s p → rm p s = some (ret, s') →
      ret = true ∧ ∀ k, Below s.tree p k → s'.tree.lookup k = none)
    {names : List (List UInt8)} {ret ret' : Bool} (hplain : Plain s p)
    (hfind : s.find p = some (l, .dir)) (h : rmEntries K rm p names ret s = some (ret', s')) :
    (ret = true → ret' = true) ∧ s'.find p = some (l, .dir) ∧
      ∀ n : Name, n.val ∈ names → s'.tree.lookup (n :: l) = none := by
  induction names generalizing ret s with
  | nil =>
      cases h
      exact ⟨id, hfind, nofun⟩
  | cons name names ih =>
      rw [rmEntries, hK, if_neg Bool.false_ne_true] at h
      split at h
      · rename_i hdots
        obtain ⟨hret, hfind', hgone⟩ := @ih s.counted ret hplain hfind h
        refine ⟨hret, hfind', fun n hn => ?_⟩
        rcases List.mem_cons.mp hn with rfl | hn
        · exact absurd hdots (not_or.mpr n.property)
        · exact hgone n hn
      · rename_i hname
        obtain ⟨⟨ret₁, s₁⟩, hchild, h⟩ := Option.bind_eq_some_iff.mp h
        dsimp only at h
        have hplain' : Plain s.counted p := hplain
        have hfind' : s.counted.find p = some (l, .dir) := hfind
        have hfirst := hremoves (Tree.Part.refl _) hchild
        obtain ⟨hret₁, hgone₁⟩ := hrm (hplain'.child hfind' _) hchild
        obtain ⟨hfind₁, hway₁⟩ := kept_of_child hplain' hfind' hfirst
        have hplain₁ := hplain'.kept hfind' hfirst.part hfind₁ hway₁
        obtain ⟨hret, hfinds', hgone⟩ := ih hplain₁ hfind₁ h
        have hrest := rmEntries_removes hremoves hfind₁ (Tree.Part.refl _) h
        refine ⟨fun _ => hret hret₁, hfinds', fun n hn => ?_⟩
        rcases List.mem_cons.mp hn with rfl | hn
        · -- gone in the first round, if it was there
          rw [Option.eq_none_iff_forall_ne_some]
          intro nd hleft
          have hleft₁ := hrest.part _ _ hleft
          have hthere := hfirst.part _ _ hleft₁
          have hchild' := (Tree.find_child hfind').mpr ⟨rfl, hthere⟩
          rw [hgone₁ (n :: l) ⟨n :: l, nd, hchild', List.suffix_rfl⟩] at hleft₁
          cases hleft₁
        · exact hgone n hn

theorem unlink_plain (hK : ∀ k, K.fault k = false) (hfind : s.find p = some (l, nd))
    (hdir : nd ≠ .dir) : (unlink K p false s).1 = true ∧
      ∀ k, l <:+ k → (unlink K p false s).2.tree.lookup k = none := by
  have hlstat : (K.lstat p s).1 = some (mode (K.perm l) nd) :=
    Kernel.lstat_eq_some.mpr ⟨hK _, l, nd, hfind, rfl⟩
  unfold unlink
  rw [if_neg Bool.false_ne_true, hlstat]
  dsimp only
  rcases K.unlink_cases (p := p) (s := (K.lstat p s).2) with
    ⟨-, -, hfails⟩ | ⟨htrue, l', nd', hfind', -, hs'⟩
  · exact absurd (hfails (hK _) l nd hfind) hdir
  · obtain ⟨rfl, -⟩ := find_unique hfind hfind'
    rw [hs']
    exact ⟨htrue, fun k => erase_below hfind (entries_of_not_dir (Tree.lookup_of_find hfind) hdir)⟩

/-- `rmdir` behind the loop, when no entry is left. -/
theorem rmdir_plain (hK : ∀ k, K.fault k = false) (hfind : s.find p = some (l, .dir))
    (hentries : s.tree.entries l = []) : (K.rmdir p s).1 = true ∧
      ∀ k, l <:+ k → (K.rmdir p s).2.tree.lookup k = none := by
  rcases K.rmdir_cases (p := p) (s := s) with
    ⟨-, -, hfails⟩ | ⟨htrue, l', hfind', -, hs'⟩
  · exact absurd hentries (hfails (hK _) l hfind)
  · obtain ⟨rfl, -⟩ := find_unique hfind hfind'
    rw [hs']
    exact ⟨htrue, fun k => erase_below hfind hentries⟩

theorem rm_plain (hK : ∀ k, K.fault k = false) {ret : Bool} (hplain : Plain s p)
    (h : rm K fuel p s = some (ret, s')) :
    ret = true ∧ ∀ k, Below s.tree p k → s'.tree.lookup k = none := by
  induction fuel generalizing p s ret s' with
  | zero => cases h
  | succ fuel ih =>
      rcases rm_cases K p s fuel with ⟨hnone, hrm⟩ | ⟨l, nd, hfind, -, hrm⟩
      · obtain ⟨rfl, rfl⟩ := Prod.mk.inj (Option.some.inj (hrm.symm.trans h))
        refine ⟨rfl, ?_⟩
        rintro k ⟨l, nd, hfind, -⟩
        have hfind' : s.find p = some (l, nd) := hfind
        rw [hK, hfind'] at hnone
        rcases hnone with hnone | hnone <;> cases hnone
      · have hbelow : ∀ k, Below s.tree p k → l <:+ k := by
          rintro k ⟨l', nd', hfind', hsuffix⟩
          obtain ⟨rfl, -⟩ := find_unique hfind hfind'
          exact hsuffix
        rcases hrm with ⟨hbit, hrm⟩ | ⟨hbit, hdir, -⟩ | ⟨rfl, hrm⟩
        · have hunlink := Option.some.inj (hrm.symm.trans h)
          have hfind' : (s.called (s.way p)).find p = some (l, nd) := hfind
          rw [mode_and_dir] at hbit
          obtain ⟨htrue, hgone⟩ := unlink_plain hK hfind' hbit.1
          rw [hunlink] at htrue hgone
          exact ⟨htrue, fun k hk => hgone k (hbelow k hk)⟩
        · -- the directory bit of something else
          have hkinds := (hplain l nd hfind).1 l List.suffix_rfl
          rw [Tree.lookup_of_find hfind] at hkinds
          refine absurd ((mode_and_dir _ _).mpr ⟨fun hnd => ?_, ?_, ?_⟩) hbit
          · exact Bool.false_ne_true ((hK _).symm.trans (hdir hnd))
          · exact fun hnd => hkinds.1 (congrArg some hnd)
          · exact fun hnd => hkinds.2 (congrArg some hnd)
        · rw [hrm] at h
          obtain ⟨⟨ret₁, s₁⟩, hloop, hend⟩ := Option.map_eq_some_iff.mp h
          obtain ⟨rfl, rfl⟩ := Prod.mk.inj hend
          have hplain' : Plain (entered p s) p := hplain
          have hfind' : (entered p s).find p = some (l, .dir) := hfind
          obtain ⟨hret₁, hfind₁, hgone⟩ := rmEntries_plain hK rm_removes ih hplain' hfind' hloop
          have hpart := (rmEntries_removes rm_removes hfind' (Tree.Part.refl _) hloop).part
          have hentries : s₁.tree.entries l = [] := by
            rw [Tree.entries_eq_nil]
            intro n
            rw [Option.eq_none_iff_forall_ne_some]
            intro nd hleft
            have hn : n ∈ s.tree.entries l := Tree.mem_entries.mpr ⟨nd, hpart _ _ hleft⟩
            rw [hgone n (List.mem_cons_of_mem _ (List.mem_cons_of_mem _
              (List.mem_map_of_mem hn)))] at hleft
            cases hleft
          obtain ⟨htrue, hbelow₁⟩ := rmdir_plain hK hfind₁ hentries
          rw [htrue, if_pos rfl]
          exact ⟨hret₁ rfl, fun k hk => hbelow₁ k (hbelow k hk)⟩

/-! ## Exactly when -/

/-- What has the directory bit wrongly stays, and a path that leads through what is to go does not
find the directory in the end. -/
theorem plain_of_complete (hK : ∀ k, K.fault k = false)
    (h : rm K (fuel + 1) p s = some (true, s'))
    (hgone : ∀ k, Below s.tree p k → s'.tree.lookup k = none) : Plain s p := by
  intro l nd hfind
  have hremoves := rm_removes (Tree.Part.refl _) h
  have hstays : ∀ k nd', l <:+ k → s.tree.lookup k = some nd' → ¬ ReadsAsDir nd' := by
    intro k nd' hk hlookup
    rcases hremoves.lookup k with heq | ⟨-, -, hstays⟩
    · rw [hgone k ⟨l, nd, hfind, hk⟩, hlookup] at heq
      cases heq
    · exact hstays nd' hlookup
  refine ⟨fun k hk => ⟨fun hlookup => ?_, fun hlookup => ?_⟩, fun k hpassed hk => ?_⟩
  · exact hstays k _ hk hlookup (.inl rfl)
  · exact hstays k _ hk hlookup (.inr rfl)
  · by_contra hne
    obtain ⟨nd', hthere⟩ := Tree.walk_passed k hpassed
    obtain ⟨n, nd'', hn, -⟩ := Tree.exists_entry hthere hk hne
    have hdir : nd = .dir :=
      Option.some.inj ((Tree.lookup_of_find hfind).symm.trans (Tree.lookup_parent hn))
    subst hdir
    obtain ⟨s₁, hremoves₁, l₁, hfind₁, hentries, -⟩ := exists_rmdir hfind (hK _) h
    obtain ⟨rfl, -⟩ := find_unique (Tree.find_of_part hremoves₁.part hfind₁) hfind
    -- the way is the same in the end, and what it passes is still there
    have hway : s₁.way p = s.way p := Tree.walk_eq_of_part hremoves₁.part hfind₁
    rw [← hway] at hpassed
    obtain ⟨nd₁, hleft⟩ := Tree.walk_passed k hpassed
    obtain ⟨n₁, nd₂, hn₁, -⟩ := Tree.exists_entry hleft hk hne
    rw [Tree.entries_eq_nil.mp hentries n₁] at hn₁
    cases hn₁

theorem complete_iff (hK : ∀ k, K.fault k = false) {ret : Bool}
    (h : rm K (fuel + 1) p s = some (ret, s')) : Complete p s s' ret ↔ Plain s p := by
  have hremoves := rm_removes (Tree.Part.refl _) h
  constructor
  · intro hcomplete
    rw [hcomplete.returns] at h
    exact plain_of_complete hK h hcomplete.gone
  · intro hplain
    obtain ⟨hret, hgone⟩ := rm_plain hK hplain h
    refine ⟨hret, hgone, fun k hk => ?_, hremoves.followed⟩
    exact (hremoves.lookup k).resolve_right fun hgone => hk hgone.2.1

theorem gone_iff {ret : Bool} (h : rm K (fuel + 1) p s = some (ret, s')) :
    (ret = true → s'.find p = none) ↔ Seen K p s := by
  constructor
  · intro hgone
    by_contra hseen
    obtain ⟨s₁, hrm, hleft⟩ : ∃ s₁, rm K (fuel + 1) p s = some (true, s₁) ∧ s₁.find p ≠ none :=
      rm_left hseen
    obtain ⟨rfl, rfl⟩ := Prod.mk.inj (Option.some.inj (h.symm.trans hrm))
    exact hleft (hgone rfl)
  · intro hseen hret
    exact rm_gone hseen (hret ▸ h)

theorem rm_complete_iff (K : Kernel) (p : Path Name) (s : Files) {fuel : Nat}
    (hfuel : s.tree.depth < fuel) : ∃ ret s', rm K fuel p s = some (ret, s') ∧
      ((((∀ k, K.fault k = false) → Complete p s s' ret) ∧ (ret = true → s'.find p = none)) ↔
        (((∀ k, K.fault k = false) → Plain s p) ∧ Seen K p s)) := by
  obtain ⟨⟨ret, s'⟩, h⟩ : ∃ r, rm K fuel p s = some r := by
    refine rm_total (fun k nd => Tree.length_le_depth) (Nat.zero_lt_of_lt hfuel) ?_
    intro l nd hfind
    have hpos := List.length_pos_of_ne_nil (ne_root_of_find hfind)
    omega
  refine ⟨ret, s', h, ?_⟩
  obtain ⟨fuel, rfl⟩ := Nat.exists_eq_add_of_lt (Nat.zero_lt_of_lt hfuel)
  rw [Nat.zero_add] at h
  exact and_congr (forall_congr' fun hK => complete_iff hK h) (gone_iff h)

end

/-! A directory with one entry. -/

def nameD : Name := ⟨[100], by decide⟩

def single (kind : FileType) : Tree Name FileType where
  nodes := [([], .dir), ([nameD], .dir), ([nameD, nameD], .leaf kind)]
  nodup := by
    show ([[], [nameD], [nameD, nameD]] : List Location).Nodup
    decide
  root := List.mem_cons_self
  parent := by
    intro n l nd h
    simp only [List.mem_cons, List.not_mem_nil, or_false, Prod.mk.injEq, List.cons.injEq] at h ⊢
    rcases h with h | h | h
    · cases h.1
    · exact .inl ⟨h.1.2, trivial⟩
    · exact .inr (.inl ⟨h.1.2, trivial⟩)

def quiet : Kernel := ⟨fun _ => false, fun _ => 0o755⟩

def pathD : Path Name := ⟨[], [], nameD⟩

theorem rm_complete_iff_regular :
    (∃ ret s', rm quiet 3 pathD ⟨single .regular, 0, []⟩ = some (ret, s') ∧
      ((((∀ k, quiet.fault k = false) → Complete pathD ⟨single .regular, 0, []⟩ s' ret) ∧
          (ret = true → s'.find pathD = none)) ↔
        (((∀ k, quiet.fault k = false) → Plain ⟨single .regular, 0, []⟩ pathD) ∧
          Seen quiet pathD ⟨single .regular, 0, []⟩))) ∧
    (rm quiet 3 pathD ⟨single .regular, 0, []⟩).map Prod.fst = some true :=
  ⟨rm_complete_iff quiet pathD ⟨single .regular, 0, []⟩ (by decide), by decide⟩

/-- A socket is opened as a directory: it stays, and so does the directory it is in. -/
theorem rm_complete_socket :
    (rm quiet 3 pathD ⟨single .socket, 0, []⟩).map (fun r => (r.1, r.2.tree.entries [nameD])) =
      some (false, [nameD]) ∧
    ¬ ∀ (K : Kernel) (p : Path Name) (s s' : Files) (fuel : Nat) (ret : Bool),
      rm K fuel p s = some (ret, s') →
        ((∀ k, K.fault k = false) → Complete p s s' ret) ∧ (ret = true → s'.find p = none) := by
  have hrun : (rm quiet 3 pathD ⟨single .socket, 0, []⟩).map
      (fun r => (r.1, r.2.tree.entries [nameD])) = some (false, [nameD]) := by decide
  refine ⟨hrun, fun h => ?_⟩
  obtain ⟨⟨ret, s'⟩, hrm, heq⟩ := Option.map_eq_some_iff.mp hrun
  have hret := ((h _ _ _ _ _ _ hrm).1 fun _ => rfl).returns
  have hfalse : ret = false := (Prod.mk.inj heq).1
  rw [hret] at hfalse
  cases hfalse

end Gxh.Util.FSUtil
