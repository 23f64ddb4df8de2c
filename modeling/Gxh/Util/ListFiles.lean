import Gxh.HttpParser.Basic
import Gxh.Util.Remove

/-!
# Listing a tree

`FSUtil::ListAllFile` (`util.cpp`): the regular files below a directory whose names end in a suffix,
by the types that `readdir` gives, so that links are not followed below the path. A file system need
not give them: an entry of type `DT_UNKNOWN` is passed over, with all that is below it.

`listAllFile_exact`: in every run only such files are listed, none of them twice, under paths that
lead to them; and all of them whose types are given, unless a call fails.
-/

namespace Gxh.Util

open FileTree
open HttpParser (bytes)

/-- The `d_type` of an entry of the directory that a path opens, none for `DT_UNKNOWN`; `typed` are
the entries of which the file system gives the type. -/
def Files.dType (typed : Location → Bool) (s : Files) (p : Path Name) (name : Name) :
    Option File :=
  (s.tree.walk maxLinks p.start (p.dir ++ [.down p.last])).dir.bind fun l =>
    if typed (name :: l) then s.tree.lookup (name :: l) else none

namespace FSUtil

/-- The test of a file name. -/
def hasSubfix (subfix filename : List UInt8) : Bool :=
  if subfix = [] then true
  else if filename.length < subfix.length then false
  else filename.drop (filename.length - subfix.length) == subfix

/-- The body of the loop of `ListAllFile`, for any other entry than `.` and `..`. -/
def listEntry (typed : Location → Bool)
    (list : Path Name → List (Path Name) → Files → Option (List (Path Name) × Files))
    (subfix : List UInt8) (p : Path Name) (n : Name) (files : List (Path Name)) (s : Files) :
    Option (List (Path Name) × Files) :=
  match s.dType typed p n with
  | some .dir => list (p.child n) files s
  | some (.leaf .regular) =>
      some (if hasSubfix subfix n.val then files ++ [p.child n] else files, s)
  | _ => some (files, s)

/-- The loop of `ListAllFile` over what `readdir` gives, which may end early. -/
def listEntries (K : Kernel) (typed : Location → Bool)
    (list : Path Name → List (Path Name) → Files → Option (List (Path Name) × Files))
    (subfix : List UInt8) (p : Path Name) :
    List (List UInt8) → List (Path Name) → Files → Option (List (Path Name) × Files)
  | [], files, s => some (files, s.counted)
  | name :: names, files, s =>
      if K.fault s.calls then some (files, s.counted)
      else if h : name ≠ dot ∧ name ≠ dotdot then
        (listEntry typed list subfix p ⟨name, h⟩ files s.counted).bind fun (files, s) =>
          listEntries K typed list subfix p names files s
      else listEntries K typed list subfix p names files s.counted

/-- `ListAllFile`, nested at most so many times. -/
def listAllFile (K : Kernel) (typed : Location → Bool) (subfix : List UInt8) :
    Nat → Path Name → List (Path Name) → Files → Option (List (Path Name) × Files)
  | 0, _, _, _ => none
  | fuel + 1, p, files, s =>
      -- what is not there `access` refuses, and `opendir` would refuse it too
      if K.fault s.calls then some (files, s.called (s.way p))
      else
        let s := s.called (s.way p)
        match (K.opendir p s).1 with
        | none => some (files, (K.opendir p s).2)
        | some names =>
            listEntries K typed (listAllFile K typed subfix fuel) subfix p names files
              (K.opendir p s).2

/-! ## Paths below a path -/

/-- The path of what is below by names. -/
def under (p : Path Name) : List Name → Path Name
  | [] => p
  | n :: names => under (p.child n) names

/-- The components of a path. -/
def comps (p : Path Name) : List (Comp Name) := p.dir ++ [.down p.last]

theorem comps_under (p : Path Name) (names : List Name) :
    comps (under p names) = comps p ++ names.map .down := by
  induction names generalizing p with
  | nil => exact (List.append_nil _).symm
  | cons n names ih =>
      show comps (under (p.child n) names) = _
      rw [ih]
      show (p.dir ++ [.down p.last]) ++ [.down n] ++ _ = _
      rw [List.append_assoc]
      rfl

theorem under_injective (p : Path Name) : Function.Injective (under p) := by
  intro names names' h
  have hcomps := congrArg comps h
  rw [comps_under, comps_under] at hcomps
  refine List.map_injective_iff.mpr (fun m n hmn => ?_) (List.append_cancel_left hcomps)
  cases hmn
  rfl

section

variable {K : Kernel} {typed : Location → Bool} {t : Tree Name FileType} {p : Path Name}
  {s s' : Files} {l : Location} {nd : File} {subfix : List UInt8}

/-- What has something below it is a directory. -/
theorem lookup_dir {k : Location} (hk : t.lookup k = some nd) (hsuffix : l <:+ k) (hne : k ≠ l) :
    t.lookup l = some .dir := by
  obtain ⟨n, nd', hn, -⟩ := Tree.exists_entry hk hsuffix hne
  exact Tree.lookup_parent hn

/-- The path opens the directory `l`. -/
structure Opens (t : Tree Name FileType) (p : Path Name) (l : Location) : Prop where
  dir : (t.walk maxLinks p.start (p.dir ++ [.down p.last])).dir = some l
  lookup : t.lookup l = some .dir

theorem Opens.find_child (h : Opens t p l) {n : Name} (hn : t.lookup (n :: l) = some nd) :
    t.find maxLinks (p.child n) = some (n :: l, nd) :=
  Tree.find_eq_some.mpr ⟨l, h.dir, rfl, hn⟩

theorem Opens.child (h : Opens t p l) {n : Name} (hn : t.lookup (n :: l) = some .dir) :
    Opens t (p.child n) (n :: l) where
  dir := by
    show (t.walk maxLinks p.start ((p.dir ++ [.down p.last]) ++ [.down n])).dir = _
    rw [show p.dir ++ [.down p.last] = (p.child n).dir from rfl]
    exact congrArg Visit.dir (Tree.walk_child (h.find_child hn))
  lookup := hn

/-- A path by names leads to what the names lead to. -/
theorem Opens.find_under (h : Opens t p l) {names : List Name} (hne : names ≠ [])
    (hnd : t.lookup (names.reverse ++ l) = some nd) :
    t.find maxLinks (under p names) = some (names.reverse ++ l, nd) := by
  induction names generalizing p l with
  | nil => exact absurd rfl hne
  | cons n names ih =>
      rw [List.reverse_cons, List.append_assoc, List.singleton_append] at hnd ⊢
      cases names with
      | nil => exact h.find_child hnd
      | cons m names =>
          refine ih (h.child ?_) (List.cons_ne_nil _ _) hnd
          -- a directory, since there is something below
          have hsuffix : n :: l <:+ (m :: names).reverse ++ n :: l := List.suffix_append _ _
          refine lookup_dir hnd hsuffix fun heq => ?_
          have hnil := List.append_left_eq_self.mp heq
          exact absurd (List.reverse_eq_nil_iff.mp hnil) (List.cons_ne_nil _ _)

/-! ## What is listed -/

theorem hasSubfix_iff {filename : List UInt8} :
    hasSubfix subfix filename = true ↔ subfix <:+ filename := by
  unfold hasSubfix
  split
  · rename_i hnil
    rw [hnil]
    exact iff_of_true rfl List.nil_suffix
  · split
    · rename_i hshort
      exact iff_of_false Bool.false_ne_true fun hsuffix => Nat.not_lt.mpr hsuffix.length_le hshort
    · rw [beq_iff_eq, List.suffix_iff_eq_drop]
      exact eq_comm

/-- A regular file whose name ends in the suffix. -/
def Wanted (t : Tree Name FileType) (subfix : List UInt8) (k : Location) : Prop :=
  ∃ n k', k = n :: k' ∧ t.lookup k = some (.leaf .regular) ∧ subfix <:+ n.val

/-- `readdir` gives the types on the way from the directory `l`. -/
def Typed (typed : Location → Bool) (l k : Location) : Prop :=
  ∀ j, j <:+ k → l.length < j.length → typed j = true

/-- What is to be listed below `l`. -/
def Listed (typed : Location → Bool) (t : Tree Name FileType) (subfix : List UInt8)
    (l k : Location) : Prop := Wanted t subfix k ∧ Typed typed l k

/-- On the way from `l` the entry of `l` comes first. -/
theorem typed_entry {n : Name} {k : Location} (hk : n :: l <:+ k) :
    Typed typed l k ↔ typed (n :: l) = true ∧ Typed typed (n :: l) k := by
  constructor
  · intro h
    exact ⟨h _ hk (Nat.lt_succ_self _), fun j hj hlt => h j hj (Nat.lt_of_succ_lt hlt)⟩
  · rintro ⟨hn, h⟩ j hj hlt
    rcases Nat.eq_or_lt_of_le (show (n :: l).length ≤ j.length from hlt) with heq | hlt
    · rw [(List.suffix_of_suffix_length_le hk hj heq.le).eq_of_length heq] at hn
      exact hn
    · exact h j hj hlt

/-- What was listed at `k` in a run on the directory `l`: names that lead to the files, each file
once, and all the files if no call fails. -/
structure Lists (K : Kernel) (typed : Location → Bool) (t : Tree Name FileType)
    (subfix : List UInt8) (l k : Location) (found : List (List Name)) : Prop where
  nodup : found.Nodup
  listed : ∀ r ∈ found, Listed typed t subfix l (r.reverse ++ k)
  all : (∀ k, K.fault k = false) → ∀ r, Listed typed t subfix l (r.reverse ++ k) → r ∈ found

/-- The same for the entries `names` of `l` only. -/
structure ListsOf (K : Kernel) (typed : Location → Bool) (t : Tree Name FileType)
    (subfix : List UInt8) (l : Location) (names : List (List UInt8)) (found : List (List Name)) :
    Prop where
  nodup : found.Nodup
  listed : ∀ r ∈ found, Listed typed t subfix l (r.reverse ++ l)
  entry : ∀ r ∈ found, ∃ n r', r = n :: r' ∧ n.val ∈ names
  all : (∀ k, K.fault k = false) → ∀ n r, n.val ∈ names →
    Listed typed t subfix l ((n :: r).reverse ++ l) → n :: r ∈ found

theorem listsOf_nil (K : Kernel) : ListsOf K typed t subfix l [] [] where
  nodup := List.nodup_nil
  listed := fun r hr => by cases hr
  entry := fun r hr => by cases hr
  all := fun _ n r hn => by cases hn

/-- A run that breaks off. -/
theorem listsOf_fault {names : List (List UInt8)} {i : Nat} (hfault : K.fault i = true) :
    ListsOf K typed t subfix l names [] where
  nodup := List.nodup_nil
  listed := fun r hr => by cases hr
  entry := fun r hr => by cases hr
  all := by
    intro hK
    rw [hK] at hfault
    cases hfault

theorem reverse_cons_append (n : Name) (r : List Name) (l : Location) :
    (n :: r).reverse ++ l = r.reverse ++ n :: l := by
  rw [List.reverse_cons, List.append_assoc, List.singleton_append]

/-- The files of one entry before those of the others. -/
theorem ListsOf.cons {n : Name} {names : List (List UInt8)} {first rest : List (List Name)}
    (hnot : n.val ∉ names) (hfirst : Lists K typed t subfix l (n :: l) first)
    (hrest : ListsOf K typed t subfix l names rest) :
    ListsOf K typed t subfix l (n.val :: names) (first.map (n :: ·) ++ rest) where
  nodup := by
    refine List.nodup_append.mpr ⟨?_, hrest.nodup, ?_⟩
    · exact hfirst.nodup.map fun r r' h => (List.cons.inj h).2
    · rintro r hr r' hr' rfl
      obtain ⟨r₁, -, rfl⟩ := List.mem_map.mp hr
      obtain ⟨m, r₂, heq, hm⟩ := hrest.entry _ hr'
      cases heq
      exact hnot hm
  listed := by
    intro r hr
    rcases List.mem_append.mp hr with hr | hr
    · obtain ⟨r₁, hr₁, rfl⟩ := List.mem_map.mp hr
      rw [reverse_cons_append]
      exact hfirst.listed r₁ hr₁
    · exact hrest.listed r hr
  entry := by
    intro r hr
    rcases List.mem_append.mp hr with hr | hr
    · obtain ⟨r₁, -, rfl⟩ := List.mem_map.mp hr
      exact ⟨n, r₁, rfl, List.mem_cons_self⟩
    · obtain ⟨m, r₁, rfl, hm⟩ := hrest.entry r hr
      exact ⟨m, r₁, rfl, List.mem_cons_of_mem _ hm⟩
  all := by
    intro hK m r hm hlisted
    rcases List.mem_cons.mp hm with heq | hm
    · obtain rfl : m = n := Subtype.ext heq
      rw [reverse_cons_append] at hlisted
      exact List.mem_append_left _ (List.mem_map_of_mem (hfirst.all hK r hlisted))
    · exact List.mem_append_right _ (hrest.all hK m r hm hlisted)

/-- An entry whose type is not given. -/
theorem lists_unknown {n : Name} (htyped : ¬typed (n :: l) = true) :
    Lists K typed t subfix l (n :: l) [] where
  nodup := List.nodup_nil
  listed := fun r hr => by cases hr
  all := fun _ r hr => absurd ((typed_entry (List.suffix_append _ _)).mp hr.2).1 htyped

/-- An entry that is a directory. -/
theorem Lists.entry {n : Name} (htyped : typed (n :: l) = true) {found : List (List Name)}
    (h : Lists K typed t subfix (n :: l) (n :: l) found) :
    Lists K typed t subfix l (n :: l) found where
  nodup := h.nodup
  listed := fun r hr => ⟨(h.listed r hr).1,
    (typed_entry (List.suffix_append _ _)).mpr ⟨htyped, (h.listed r hr).2⟩⟩
  all := fun hK r hr =>
    h.all hK r ⟨hr.1, ((typed_entry (List.suffix_append _ _)).mp hr.2).2⟩

/-- An entry that is no directory. -/
theorem lists_leaf {n : Name} (htyped : typed (n :: l) = true)
    (hdir : t.lookup (n :: l) ≠ some .dir) {found : List (List Name)}
    (hfound : found = [] ∧ ¬Wanted t subfix (n :: l) ∨ found = [[]] ∧ Wanted t subfix (n :: l)) :
    Lists K typed t subfix l (n :: l) found := by
  have hnil : ∀ r, Wanted t subfix (r.reverse ++ n :: l) → r = [] := by
    rintro r ⟨m, k, -, hlookup, -⟩
    by_contra hne
    refine hdir (lookup_dir hlookup (List.suffix_append _ _) fun heq => hne ?_)
    exact List.reverse_eq_nil_iff.mp (List.append_left_eq_self.mp heq)
  have hway : Typed typed l (n :: l) :=
    (typed_entry List.suffix_rfl).mpr ⟨htyped, fun j hj hlt =>
      absurd hj.length_le (Nat.not_le.mpr hlt)⟩
  rcases hfound with ⟨rfl, hnot⟩ | ⟨rfl, hwanted⟩
  · refine ⟨List.nodup_nil, fun r hr => ?_, fun _ r hr => ?_⟩
    · cases hr
    · obtain rfl := hnil r hr.1
      exact absurd hr.1 hnot
  · refine ⟨List.nodup_singleton _, fun r hr => ?_, fun _ r hr => ?_⟩
    · obtain rfl := List.mem_singleton.mp hr
      exact ⟨hwanted, hway⟩
    · exact List.mem_singleton.mpr (hnil r hr.1)

/-- `.` and `..` are passed over. -/
theorem ListsOf.skip {name : List UInt8} (hname : ¬(name ≠ dot ∧ name ≠ dotdot))
    {names : List (List UInt8)} {found : List (List Name)}
    (h : ListsOf K typed t subfix l names found) :
    ListsOf K typed t subfix l (name :: names) found where
  nodup := h.nodup
  listed := h.listed
  entry := by
    intro r hr
    obtain ⟨n, r', hcons, hn⟩ := h.entry r hr
    exact ⟨n, r', hcons, List.mem_cons_of_mem _ hn⟩
  all := by
    intro hK n r hn
    refine h.all hK n r ((List.mem_cons.mp hn).resolve_left ?_)
    rintro rfl
    exact hname n.property

/-- A run leaves the files as they are, and adds what it has listed. -/
def Ran (K : Kernel) (typed : Location → Bool) (t : Tree Name FileType) (subfix : List UInt8)
    (p : Path Name) (l k : Location) (files : List (Path Name))
    (r : List (Path Name) × Files) : Prop :=
  r.2.tree = t ∧ ∃ found, r.1 = files ++ found.map (under p) ∧ Lists K typed t subfix l k found

theorem dType_eq (hopens : Opens t p l) (htree : s.tree = t) (n : Name) :
    s.dType typed p n = if typed (n :: l) then t.lookup (n :: l) else none := by
  unfold Files.dType
  rw [htree, hopens.dir]
  rfl

theorem listEntry_ran
    {list : Path Name → List (Path Name) → Files → Option (List (Path Name) × Files)}
    (hopens : Opens t p l) {n : Name}
    (hlist : ∀ {files s r}, t.lookup (n :: l) = some .dir → s.tree = t →
      list (p.child n) files s = some r →
        Ran K typed t subfix (p.child n) (n :: l) (n :: l) files r)
    (htree : s.tree = t) {files : List (Path Name)} {r : List (Path Name) × Files}
    (h : listEntry typed list subfix p n files s = some r) :
    Ran K typed t subfix (p.child n) l (n :: l) files r := by
  unfold listEntry at h
  rw [dType_eq hopens htree n] at h
  by_cases htyped : typed (n :: l) = true
  · rw [if_pos htyped] at h
    -- an entry of any other type
    have hother : t.lookup (n :: l) ≠ some .dir → t.lookup (n :: l) ≠ some (.leaf .regular) →
        some (files, s) = some r → Ran K typed t subfix (p.child n) l (n :: l) files r := by
      intro hdir hregular heq
      cases heq
      refine ⟨htree, [], (List.append_nil _).symm, lists_leaf htyped hdir (.inl ⟨rfl, ?_⟩)⟩
      rintro ⟨m, k, -, hlookup, -⟩
      exact hregular hlookup
    cases hnode : t.lookup (n :: l) with
    | none =>
        rw [hnode] at h hother
        exact hother nofun nofun h
    | some nd =>
        rw [hnode] at h hother
        cases nd with
        | dir =>
            obtain ⟨htree', found, hfiles, hlists⟩ := hlist hnode htree h
            exact ⟨htree', found, hfiles, hlists.entry htyped⟩
        | link absolute target => exact hother nofun nofun h
        | leaf kind =>
            cases kind with
            | regular =>
                have hdir : t.lookup (n :: l) ≠ some .dir := by
                  rw [hnode]
                  nofun
                cases h
                by_cases hsubfix : hasSubfix subfix n.val = true
                · refine ⟨htree, [[]], if_pos hsubfix, lists_leaf htyped hdir (.inr ⟨rfl, ?_⟩)⟩
                  exact ⟨n, l, rfl, hnode, hasSubfix_iff.mp hsubfix⟩
                · refine ⟨htree, [], ?_, lists_leaf htyped hdir (.inl ⟨rfl, ?_⟩)⟩
                  · exact (if_neg hsubfix).trans (List.append_nil _).symm
                  · rintro ⟨m, k, heq, -, hm⟩
                    cases heq
                    exact hsubfix (hasSubfix_iff.mpr hm)
            | socket => exact hother nofun nofun h
            | block => exact hother nofun nofun h
            | character => exact hother nofun nofun h
            | fifo => exact hother nofun nofun h
  · rw [if_neg htyped] at h
    cases h
    exact ⟨htree, [], (List.append_nil _).symm, lists_unknown htyped⟩

theorem listEntries_lists
    {list : Path Name → List (Path Name) → Files → Option (List (Path Name) × Files)}
    (hopens : Opens t p l)
    (hlist : ∀ {n files s r}, t.lookup (n :: l) = some .dir → s.tree = t →
      list (p.child n) files s = some r →
        Ran K typed t subfix (p.child n) (n :: l) (n :: l) files r)
    {names : List (List UInt8)} (hnodup : names.Nodup) (htree : s.tree = t)
    {files : List (Path Name)} {r : List (Path Name) × Files}
    (h : listEntries K typed list subfix p names files s = some r) :
    r.2.tree = t ∧ ∃ found, r.1 = files ++ found.map (under p) ∧
      ListsOf K typed t subfix l names found := by
  induction names generalizing files s with
  | nil =>
      cases h
      exact ⟨htree, [], (List.append_nil _).symm, listsOf_nil K⟩
  | cons name names ih =>
      obtain ⟨hnot, hnodup⟩ := List.nodup_cons.mp hnodup
      rw [listEntries] at h
      split at h
      · rename_i hfault
        cases h
        exact ⟨htree, [], (List.append_nil _).symm, listsOf_fault hfault⟩
      · split at h
        · obtain ⟨⟨files₁, s₁⟩, hentry, hrest⟩ := Option.bind_eq_some_iff.mp h
          obtain ⟨htree₁, first, hfiles₁, hfirst⟩ :=
            listEntry_ran (s := s.counted) hopens hlist htree hentry
          obtain ⟨htree', found, hfiles, hfound⟩ := ih hnodup htree₁ hrest
          refine ⟨htree', _, ?_, ListsOf.cons hnot hfirst hfound⟩
          rw [hfiles, List.map_append, List.map_map, ← List.append_assoc]
          exact congrArg (· ++ _) hfiles₁
        · rename_i hname
          obtain ⟨htree', found, hfiles, hfound⟩ := ih hnodup (s := s.counted) htree h
          exact ⟨htree', found, hfiles, hfound.skip hname⟩

theorem nodup_names (t : Tree Name FileType) (l : Location) :
    (dot :: dotdot :: (t.entries l).map Subtype.val).Nodup := by
  refine List.nodup_cons.mpr ⟨fun hmem => ?_, List.nodup_cons.mpr ⟨fun hmem => ?_, ?_⟩⟩
  · rcases List.mem_cons.mp hmem with heq | hmem
    · exact absurd heq (by decide)
    · obtain ⟨n, -, heq⟩ := List.mem_map.mp hmem
      exact n.property.1 heq
  · obtain ⟨n, -, heq⟩ := List.mem_map.mp hmem
    exact n.property.2 heq
  · exact (Tree.nodup_entries t l).map Subtype.val_injective

/-- All the entries of a directory. -/
theorem ListsOf.lists {found : List (List Name)} (hl : t.lookup l = some .dir)
    (h : ListsOf K typed t subfix l (dot :: dotdot :: (t.entries l).map Subtype.val) found) :
    Lists K typed t subfix l l found where
  nodup := h.nodup
  listed := h.listed
  all := by
    intro hK r hlisted
    obtain ⟨-, -, -, hlookup, -⟩ := hlisted.1
    cases r with
    | nil =>
        rw [show ([] : List Name).reverse ++ l = l from rfl, hl] at hlookup
        cases hlookup
    | cons n r =>
        refine h.all hK n r ?_ hlisted
        rw [reverse_cons_append] at hlookup
        have hentry : ∃ nd, t.lookup (n :: l) = some nd := by
          by_cases heq : r.reverse ++ n :: l = n :: l
          · rw [heq] at hlookup
            exact ⟨_, hlookup⟩
          · exact ⟨_, lookup_dir hlookup (List.suffix_append _ _) heq⟩
        have hmem := List.mem_map_of_mem (f := Subtype.val) (Tree.mem_entries.mpr hentry)
        exact List.mem_cons_of_mem _ (List.mem_cons_of_mem _ hmem)

theorem listAllFile_ran {fuel : Nat} (hopens : Opens t p l) (htree : s.tree = t)
    {files : List (Path Name)} {r : List (Path Name) × Files}
    (h : listAllFile K typed subfix fuel p files s = some r) :
    Ran K typed t subfix p l l files r := by
  induction fuel generalizing p l s files r with
  | zero => cases h
  | succ fuel ih =>
      -- a run that lists nothing, for a call that fails
      have hfails : ∀ {n : Nat} {s' : Files}, K.fault n = true → s'.tree = t →
          some (files, s') = some r → Ran K typed t subfix p l l files r := by
        intro n s' hfault htree' heq
        cases heq
        exact ⟨htree', [], (List.append_nil _).symm, (listsOf_fault hfault).lists hopens.lookup⟩
      unfold listAllFile at h
      split at h
      · rename_i hfault
        exact hfails hfault (show (s.called (s.way p)).tree = t from htree) h
      · have hopendir : K.opendir p (s.called (s.way p)) = (if K.fault (s.calls + 1) then none
            else some (dot :: dotdot :: (t.entries l).map Subtype.val),
            (s.called (s.way p)).called
              (t.walk maxLinks p.start (p.dir ++ [.down p.last]))) := by
          unfold Kernel.opendir
          dsimp only [Files.called]
          rw [htree, hopens.dir]
          rfl
        dsimp only at h
        rw [hopendir] at h
        cases hfault : K.fault (s.calls + 1) with
        | true =>
            rw [hfault] at h
            refine hfails hfault ?_ h
            exact htree
        | false =>
            rw [hfault] at h
            obtain ⟨htree', found, hfiles, hfound⟩ :=
              listEntries_lists hopens (fun hn htree₁ hchild => ih (hopens.child hn) htree₁ hchild)
                (nodup_names t l) (by exact htree) h
            exact ⟨htree', found, hfiles, hfound.lists hopens.lookup⟩

/-! ## The end of a run -/

theorem listEntry_total
    {list : Path Name → List (Path Name) → Files → Option (List (Path Name) × Files)} {n : Name}
    (hopens : Opens t p l) (htree : s.tree = t)
    (hlist : ∀ {files s}, t.lookup (n :: l) = some .dir → s.tree = t →
      ∃ r, list (p.child n) files s = some r) (files : List (Path Name)) :
    ∃ r, listEntry typed list subfix p n files s = some r := by
  unfold listEntry
  rw [dType_eq hopens htree n]
  by_cases htyped : typed (n :: l) = true
  swap
  · rw [if_neg htyped]
    exact ⟨_, rfl⟩
  rw [if_pos htyped]
  cases hnode : t.lookup (n :: l) with
  | none => exact ⟨_, rfl⟩
  | some nd =>
      cases nd with
      | dir => exact hlist hnode htree
      | link absolute target => exact ⟨_, rfl⟩
      | leaf kind => cases kind <;> exact ⟨_, rfl⟩

theorem listEntries_total
    {list : Path Name → List (Path Name) → Files → Option (List (Path Name) × Files)}
    (hopens : Opens t p l)
    (htotal : ∀ {n files s}, t.lookup (n :: l) = some .dir → s.tree = t →
      ∃ r, list (p.child n) files s = some r)
    (hlist : ∀ {n files s r}, t.lookup (n :: l) = some .dir → s.tree = t →
      list (p.child n) files s = some r →
        Ran K typed t subfix (p.child n) (n :: l) (n :: l) files r)
    (names : List (List UInt8)) (htree : s.tree = t) (files : List (Path Name)) :
    ∃ r, listEntries K typed list subfix p names files s = some r := by
  induction names generalizing files s with
  | nil => exact ⟨_, rfl⟩
  | cons name names ih =>
      rw [listEntries]
      split
      · exact ⟨_, rfl⟩
      · split
        · rename_i hname
          obtain ⟨⟨files₁, s₁⟩, hentry⟩ : ∃ r,
              listEntry typed list subfix p ⟨name, hname⟩ files s.counted = some r :=
            listEntry_total (s := s.counted) hopens htree htotal files
          obtain ⟨htree₁, -⟩ := listEntry_ran (s := s.counted) hopens hlist htree hentry
          obtain ⟨r, hr⟩ := ih htree₁ files₁
          exact ⟨r, Option.bind_eq_some_iff.mpr ⟨_, hentry, hr⟩⟩
        · exact ih (s := s.counted) htree files

/-- A run nests at most as often as the tree is deep below the path. -/
theorem listAllFile_total {fuel : Nat} (hopens : Opens t p l) (htree : s.tree = t)
    (hfuel : t.depth < l.length + fuel) (files : List (Path Name)) :
    ∃ r, listAllFile K typed subfix fuel p files s = some r := by
  induction fuel generalizing p l s files with
  | zero =>
      have hlength := Tree.length_le_depth hopens.lookup
      exact absurd hfuel (by omega)
  | succ fuel ih =>
      unfold listAllFile
      split
      · exact ⟨_, rfl⟩
      · dsimp only
        split
        · exact ⟨_, rfl⟩
        · rename_i names hnames
          refine listEntries_total hopens (fun {n files s} hn htree₁ => ?_)
            (fun hn htree₁ hchild => listAllFile_ran (hopens.child hn) htree₁ hchild) names
            (by exact htree) files
          refine ih (hopens.child hn) htree₁ ?_ files
          rw [List.length_cons]
          omega

/-- Every run ends, leaves the files alone, and adds paths to the list that lead to regular files
below the directory with the suffix in their names, each file once, if the types on the way to them
are given. If no call fails, it adds all of these. -/
theorem listAllFile_exact (K : Kernel) (typed : Location → Bool) (subfix : List UInt8)
    {p : Path Name} {s : Files} {l : Location} (hopens : Opens s.tree p l) {fuel : Nat}
    (hfuel : s.tree.depth < l.length + fuel) (files : List (Path Name)) :
    ∃ found s', listAllFile K typed subfix fuel p files s = some (files ++ found, s') ∧
      s'.tree = s.tree ∧ found.Nodup ∧
      (∀ q ∈ found, ∃ k, s.find q = some (k, .leaf .regular) ∧ l <:+ k ∧
        Wanted s.tree subfix k ∧ Typed typed l k) ∧
      (∀ q ∈ found, ∀ q' ∈ found, s.find q = s.find q' → q = q') ∧
      ((∀ n, K.fault n = false) → ∀ k, l <:+ k → Wanted s.tree subfix k → Typed typed l k →
        ∃ q ∈ found, s.find q = some (k, .leaf .regular)) := by
  obtain ⟨⟨listed, s'⟩, hrun⟩ : ∃ r, listAllFile K typed subfix fuel p files s = some r :=
    listAllFile_total hopens rfl hfuel files
  obtain ⟨htree, found, hfiles, hlists⟩ := listAllFile_ran hopens rfl hrun
  have hfind : ∀ r, Wanted s.tree subfix (r.reverse ++ l) →
      s.find (under p r) = some (r.reverse ++ l, .leaf .regular) := by
    rintro r ⟨n, k, -, hlookup, -⟩
    refine hopens.find_under ?_ hlookup
    rintro rfl
    rw [show ([] : List Name).reverse ++ l = l from rfl, hopens.lookup] at hlookup
    cases hlookup
  refine ⟨found.map (under p), s', ?_, htree, hlists.nodup.map (under_injective p), ?_, ?_, ?_⟩
  · rw [hrun]
    exact congrArg (fun x => some (x, s')) hfiles
  · intro q hq
    obtain ⟨r, hr, rfl⟩ := List.mem_map.mp hq
    have hlisted := hlists.listed r hr
    exact ⟨_, hfind r hlisted.1, List.suffix_append _ _, hlisted⟩
  · intro q hq q' hq' heq
    obtain ⟨r, hr, rfl⟩ := List.mem_map.mp hq
    obtain ⟨r', hr', rfl⟩ := List.mem_map.mp hq'
    rw [hfind r (hlists.listed r hr).1, hfind r' (hlists.listed r' hr').1] at heq
    have hlocation := (Prod.mk.inj (Option.some.inj heq)).1
    rw [List.reverse_injective (List.append_cancel_right hlocation)]
  · intro hK k hsuffix hwanted htyped
    obtain ⟨front, rfl⟩ := hsuffix
    have hlisted : Listed typed s.tree subfix l (front.reverse.reverse ++ l) := by
      rw [List.reverse_reverse]
      exact ⟨hwanted, htyped⟩
    refine ⟨_, List.mem_map_of_mem (hlists.all hK front.reverse hlisted), ?_⟩
    rw [hfind _ hlisted.1, List.reverse_reverse]

end

section Witness

def named (text : String) (h : bytes text ≠ dot ∧ bytes text ≠ dotdot) : Name := ⟨bytes text, h⟩

def conf : Name := named "conf" (by decide)

def subdir : Name := named "db" (by decide)

def ymlFile : Name := named "mysql.yml" (by decide)

def otherFile : Name := named "notes.txt" (by decide)

def mutedFile : Name := named "log.yml" (by decide)

/-- `conf/db/mysql.yml`, `conf/notes.txt` and `conf/log.yml`. -/
def confTree : Tree Name FileType where
  nodes := [([], .dir), ([conf], .dir), ([otherFile, conf], .leaf .regular),
    ([mutedFile, conf], .leaf .regular), ([subdir, conf], .dir),
    ([ymlFile, subdir, conf], .leaf .regular)]
  nodup := by
    show ([[], [conf], [otherFile, conf], [mutedFile, conf], [subdir, conf],
      [ymlFile, subdir, conf]] : List Location).Nodup
    decide +kernel
  root := List.mem_cons_self
  parent := by
    intro n l nd h
    simp only [List.mem_cons, List.not_mem_nil, or_false, Prod.mk.injEq, List.cons.injEq] at h ⊢
    rcases h with h | h | h | h | h | h
    · cases h.1
    · exact .inl ⟨h.1.2, trivial⟩
    · exact .inr (.inl ⟨h.1.2, trivial⟩)
    · exact .inr (.inl ⟨h.1.2, trivial⟩)
    · exact .inr (.inl ⟨h.1.2, trivial⟩)
    · exact .inr (.inr (.inr (.inr (.inl ⟨h.1.2, trivial⟩))))

/-- The file system tells no type of `conf/log.yml`. -/
def confTyped (k : Location) : Bool := k ≠ [mutedFile, conf]

theorem listAllFile_exact_yml : ∃ found s',
    listAllFile ⟨fun _ => false, fun _ => 0o755⟩ confTyped (bytes ".yml") 4 ⟨[], [], conf⟩ []
      ⟨confTree, 0, []⟩ = some (found, s') ∧
      (∃ q ∈ found, confTree.find maxLinks q = some ([ymlFile, subdir, conf], .leaf .regular)) ∧
      ∀ q ∈ found, confTree.find maxLinks q = some ([ymlFile, subdir, conf], .leaf .regular) := by
  have hopens : Opens (Files.tree ⟨confTree, 0, []⟩) ⟨[], [], conf⟩ [conf] :=
    ⟨by decide +kernel, Tree.lookup_eq_some.mpr (List.mem_cons_of_mem _ List.mem_cons_self)⟩
  have hfuel : (Files.tree ⟨confTree, 0, []⟩).depth < [conf].length + 4 := by decide +kernel
  obtain ⟨found, s', hrun, -, -, hfound, -, hall⟩ :=
    listAllFile_exact ⟨fun _ => false, fun _ => 0o755⟩ confTyped (bytes ".yml") hopens hfuel []
  refine ⟨found, s', hrun, ?_, fun q hq => ?_⟩
  · refine hall (fun _ => rfl) _ ⟨[ymlFile, subdir], rfl⟩ ?_ fun j hj _ => ?_
    · refine ⟨ymlFile, [subdir, conf], rfl, Tree.lookup_eq_some.mpr ?_, bytes "mysql", rfl⟩
      show _ ∈ confTree.nodes
      simp [confTree]
    · rw [List.suffix_cons_iff, List.suffix_cons_iff, List.suffix_cons_iff,
        List.suffix_nil] at hj
      rcases hj with rfl | rfl | rfl | rfl <;> decide +kernel
  · obtain ⟨k, hk, hbelow, ⟨n, k', rfl, hlookup, hsuffix⟩, htyped⟩ := hfound q hq
    have hshown : confTyped (n :: k') = true :=
      htyped _ List.suffix_rfl (Nat.lt_of_le_of_ne hbelow.length_le fun heq => by
        rw [← hbelow.eq_of_length heq, hopens.lookup] at hlookup
        cases hlookup)
    have hmem : (n :: k', Node.leaf FileType.regular) ∈ confTree.nodes :=
      Tree.lookup_eq_some.mp hlookup
    simp only [confTree, List.mem_cons, List.not_mem_nil, or_false, Prod.mk.injEq,
      List.cons.injEq] at hmem
    refine hk.trans ?_
    rcases hmem with h | h | h | h | h | h
    · cases h.1
    · cases h.2
    · rw [h.1.1] at hsuffix
      exact absurd (hasSubfix_iff.mpr hsuffix) (by decide +kernel)
    · rw [h.1.1, h.1.2] at hshown
      exact absurd hshown (by decide +kernel)
    · cases h.2
    · rw [h.1.1, h.1.2]

end Witness

end FSUtil

end Gxh.Util
