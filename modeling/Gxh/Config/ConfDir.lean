import Gxh.Config.Keys
import Gxh.Lib.TSys

/-!
# Configuration directories

`Config::LoadFromConfDir` (`config.cc`), over time: the files are edited, and the directory is
loaded again and again. A file is read only if its modification time, in whole seconds, is another
one than when it was read last, or by force.

`confDir_current`: as long as an edit moves the modification time of a file forward, a load reads
exactly the files that have changed, and what was last read of each file is then what it holds.
-/

namespace Gxh.Config

open HttpParser (bytes)

/-- The files: what `ListAllFile` finds below a path, and for each file its `st_mtime` and what
`YAML::LoadFile` makes of it, if it does not throw. -/
structure Disk where
  list : Str → List Str
  mtime : Str → Nat
  load : Str → Option Yaml

/-- `Env::getAbsolutePath`. -/
def getAbsolutePath (cwd path : Str) : Str :=
  if path = [] then bytes "/" else if path.head? = some ('/' : UInt8) then path else cwd ++ path

/-- The files, `s_file2modifytime`, the calls of `fromString` so far, and what was read last of each
file with the time it had then, which the source does not keep. -/
structure Loader where
  disk : Disk
  file2modifytime : Str → Nat
  calls : List FromString
  seen : Str → Option (Nat × Option Yaml)

section

variable {V : Type} (datas : Datas V)

/-- What a file comes to, if it can be parsed. -/
def callsOf (d : Disk) (file : Str) : List FromString :=
  match d.load file with
  | some root => loadFromYaml datas root
  | none => []

/-- The body of the loop of `LoadFromConfDir`. -/
def loadFile (force : Bool) (s : Loader) (file : Str) : Loader :=
  if !force && s.file2modifytime file == s.disk.mtime file then s
  else
    { s with
      file2modifytime := Function.update s.file2modifytime file (s.disk.mtime file)
      calls := s.calls ++ callsOf datas s.disk file
      seen := Function.update s.seen file (some (s.disk.mtime file, s.disk.load file)) }

/-- `LoadFromConfDir`. -/
def loadFromConfDir (cwd path : Str) (force : Bool) (s : Loader) : Loader :=
  (s.disk.list (getAbsolutePath cwd path)).foldl (loadFile datas force) s

inductive LoadAct
  | edit (d : Disk)
  | load (path : Str) (force : Bool)

def confSys (cwd : Str) : TSys Loader LoadAct where
  init := fun s => s.file2modifytime = (fun _ => 0) ∧ s.calls = [] ∧ s.seen = fun _ => none
  step := fun s a =>
    match a with
    | .edit d => some { s with disk := d }
    | .load path force => some (loadFromConfDir datas cwd path force s)

end

/-- A file that changes gets a later time. -/
def Disk.Advances (d d' : Disk) : Prop :=
  ∀ file, d.mtime file < d'.mtime file ∨
    d.mtime file = d'.mtime file ∧ d.load file = d'.load file

/-- The edits advance, and no file that is loaded has the time zero. -/
def Dated (cwd : Str) (s : Loader) : LoadAct → Prop
  | .edit d => s.disk.Advances d
  | .load path _ => ∀ file ∈ s.disk.list (getAbsolutePath cwd path), 0 < s.disk.mtime file

/-- What was read last of a file is what it holds. -/
def Loader.Current (s : Loader) (file : Str) : Prop :=
  s.seen file = some (s.disk.mtime file, s.disk.load file)

/-- The recorded time is the one of the last reading, and a file that still has it has not
changed. -/
structure Recorded (s : Loader) : Prop where
  unread : ∀ file, s.seen file = none → s.file2modifytime file = 0
  time : ∀ file m root, s.seen file = some (m, root) → s.file2modifytime file = m
  past : ∀ file m root, s.seen file = some (m, root) → m ≤ s.disk.mtime file
  same : ∀ file m root, s.seen file = some (m, root) → m = s.disk.mtime file →
    root = s.disk.load file

section

variable {V : Type} {datas : Datas V} {cwd : Str} {s : Loader} {file : Str} {force : Bool}

theorem Recorded.edit (h : Recorded s) {d : Disk} (hd : s.disk.Advances d) :
    Recorded { s with disk := d } where
  unread := h.unread
  time := h.time
  past := by
    intro file m root hseen
    rcases hd file with hlater | ⟨heq, -⟩
    · exact (h.past file m root hseen).trans hlater.le
    · exact (h.past file m root hseen).trans heq.le
  same := by
    intro file m root hseen hm
    rcases hd file with hlater | ⟨heq, hload⟩
    · exact absurd (h.past file m root hseen) (Nat.not_le.mpr (hm ▸ hlater))
    · exact (h.same file m root hseen (hm.trans heq.symm)).trans hload

/-- The test for the time is a test for a change. -/
theorem Recorded.time_eq_iff (h : Recorded s) (hpos : 0 < s.disk.mtime file) :
    s.file2modifytime file = s.disk.mtime file ↔ s.Current file := by
  unfold Loader.Current
  cases hseen : s.seen file with
  | none =>
      rw [h.unread file hseen]
      exact iff_of_false hpos.ne nofun
  | some read =>
      obtain ⟨m, root⟩ := read
      rw [h.time file m root hseen, Option.some.injEq, Prod.mk.injEq]
      exact ⟨fun hm => ⟨hm, h.same file m root hseen hm⟩, And.left⟩

theorem disk_loadFile (datas : Datas V) (force : Bool) (s : Loader) (file : Str) :
    (loadFile datas force s file).disk = s.disk := by
  unfold loadFile
  split
  · rfl
  · rfl

theorem Recorded.loadFile (h : Recorded s) (datas : Datas V) (force : Bool) (file : Str) :
    Recorded (loadFile datas force s file) := by
  unfold Config.loadFile
  split
  · exact h
  · have hcases : ∀ {other : Str} {m : Nat} {root : Option Yaml},
        Function.update s.seen file (some (s.disk.mtime file, s.disk.load file)) other =
          some (m, root) →
        (other = file ∧ m = s.disk.mtime file ∧ root = s.disk.load file) ∨
          (other ≠ file ∧ s.seen other = some (m, root)) := by
      intro other m root hseen
      by_cases hother : other = file
      · rw [hother, Function.update_self] at hseen
        cases hseen
        exact .inl ⟨hother, rfl, rfl⟩
      · rw [Function.update_of_ne hother] at hseen
        exact .inr ⟨hother, hseen⟩
    refine ⟨fun other hseen => ?_, fun other m root hseen => ?_, fun other m root hseen => ?_,
      fun other m root hseen hm => ?_⟩
    · dsimp only at hseen ⊢
      by_cases hother : other = file
      · rw [hother, Function.update_self] at hseen
        cases hseen
      · rw [Function.update_of_ne hother] at hseen ⊢
        exact h.unread other hseen
    · dsimp only
      rcases hcases hseen with ⟨rfl, rfl, -⟩ | ⟨hother, hseen⟩
      · exact Function.update_self ..
      · rw [Function.update_of_ne hother]
        exact h.time other m root hseen
    · rcases hcases hseen with ⟨rfl, rfl, -⟩ | ⟨-, hseen⟩
      · exact le_rfl
      · exact h.past other m root hseen
    · rcases hcases hseen with ⟨rfl, -, rfl⟩ | ⟨-, hseen⟩
      · rfl
      · exact h.same other m root hseen hm

theorem Recorded.loadAll (h : Recorded s) (files : List Str) :
    Recorded (files.foldl (Config.loadFile datas force) s) := by
  induction files generalizing s with
  | nil => exact h
  | cons file files ih => exact ih (h.loadFile datas force file)

/-- A file that is read. -/
def readFile (datas : Datas V) (s : Loader) (file : Str) : Loader :=
  { s with
    file2modifytime := Function.update s.file2modifytime file (s.disk.mtime file)
    calls := s.calls ++ callsOf datas s.disk file
    seen := Function.update s.seen file (some (s.disk.mtime file, s.disk.load file)) }

theorem loadFile_cases (datas : Datas V) (force : Bool) (h : Recorded s)
    (hpos : 0 < s.disk.mtime file) :
    (force = false ∧ s.Current file ∧ loadFile datas force s file = s) ∨
      ((force = true ∨ ¬s.Current file) ∧ loadFile datas force s file = readFile datas s file) := by
  unfold loadFile readFile
  by_cases hcurrent : s.Current file
  · cases force with
    | true => exact .inr ⟨.inl rfl, rfl⟩
    | false =>
        have htime := beq_iff_eq.mpr ((h.time_eq_iff hpos).mpr hcurrent)
        refine .inl ⟨rfl, hcurrent, if_pos ?_⟩
        rw [htime]
        rfl
  · have htime : (s.file2modifytime file == s.disk.mtime file) = false :=
      beq_eq_false_iff_ne.mpr fun heq => hcurrent ((h.time_eq_iff hpos).mp heq)
    refine .inr ⟨.inr hcurrent, if_neg ?_⟩
    rw [htime, Bool.and_false]
    exact Bool.false_ne_true

/-- The loop reads the files that are not current, or all, and leaves them current. -/
theorem loadFiles (datas : Datas V) (force : Bool) {files : List Str} (hnodup : files.Nodup)
    (h : Recorded s) (hpos : ∀ file ∈ files, 0 < s.disk.mtime file) :
    ∃ read : List Str, read.Sublist files ∧
      (∀ file ∈ files, file ∈ read ↔ force = true ∨ ¬s.Current file) ∧
      (files.foldl (loadFile datas force) s).disk = s.disk ∧
      (files.foldl (loadFile datas force) s).calls =
        s.calls ++ read.flatMap (callsOf datas s.disk) ∧
      Recorded (files.foldl (loadFile datas force) s) ∧
      (∀ file ∈ files, (files.foldl (loadFile datas force) s).Current file) ∧
      ∀ file ∉ files, (files.foldl (loadFile datas force) s).seen file = s.seen file := by
  induction files generalizing s with
  | nil =>
      refine ⟨[], List.Sublist.refl _, fun file hfile => ?_, rfl, (List.append_nil _).symm, h,
        fun file hfile => ?_, fun file _ => rfl⟩
      · cases hfile
      · cases hfile
  | cons first files ih =>
      obtain ⟨hfirst, hnodup⟩ := List.nodup_cons.mp hnodup
      obtain ⟨hpos₁, hpos⟩ := List.forall_mem_cons.mp hpos
      have hdisk := disk_loadFile datas force s first
      obtain ⟨read, hsub, hread, hdisk', hcalls, hrecorded, hcurrent, hothers⟩ :=
        ih hnodup (h.loadFile datas force first)
          (by rw [hdisk]; exact hpos)
      rw [List.foldl_cons]
      -- the first file is not in the rest of the list, so it stays as it is from here on
      have hlast := hothers first hfirst
      have hnot : first ∉ read := fun hmem => hfirst (hsub.subset hmem)
      rw [hdisk] at hdisk' hcalls
      -- it is left alone, with the time recorded for it, or it is read
      rcases loadFile_cases datas force h hpos₁ with ⟨hforce, hnow, heq⟩ | ⟨hwhy, heq⟩
      · rw [heq] at hread hdisk' hcalls hrecorded hcurrent hothers hlast ⊢
        refine ⟨read, hsub.cons first, fun file hfile => ?_, hdisk', hcalls, hrecorded,
          fun file hfile => ?_, fun file hfile => hothers file fun hmem => ?_⟩
        · rcases List.mem_cons.mp hfile with rfl | hfile
          · refine iff_of_false hnot (not_or.mpr ⟨?_, not_not.mpr hnow⟩)
            rw [hforce]
            exact Bool.false_ne_true
          · exact hread file hfile
        · rcases List.mem_cons.mp hfile with rfl | hfile
          · unfold Loader.Current
            rw [hlast, hdisk']
            exact hnow
          · exact hcurrent file hfile
        · exact hfile (List.mem_cons_of_mem _ hmem)
      · rw [heq] at hread hdisk' hcalls hrecorded hcurrent hothers hlast ⊢
        refine ⟨first :: read, hsub.cons_cons first, fun file hfile => ?_, hdisk', ?_, hrecorded,
          fun file hfile => ?_, fun file hfile => ?_⟩
        · rcases List.mem_cons.mp hfile with rfl | hfile
          · exact iff_of_true List.mem_cons_self hwhy
          · have hne : file ≠ first := fun heq => hfirst (heq ▸ hfile)
            have hsame : (readFile datas s first).Current file ↔ s.Current file := by
              unfold Loader.Current readFile
              dsimp only
              rw [Function.update_of_ne hne]
            rw [List.mem_cons, or_iff_right hne, hread file hfile, hsame]
        · rw [hcalls, List.flatMap_cons, ← List.append_assoc]
          rfl
        · rcases List.mem_cons.mp hfile with rfl | hfile
          · unfold Loader.Current
            rw [hlast, hdisk']
            exact Function.update_self ..
          · exact hcurrent file hfile
        · obtain ⟨hne, hfile⟩ := not_or.mp (List.mem_cons.not.mp hfile)
          rw [hothers file hfile]
          exact Function.update_of_ne hne ..

theorem recorded_inductive (datas : Datas V) (cwd : Str) :
    (confSys datas cwd).Inductive (Dated cwd) Recorded where
  init := by
    rintro s ⟨htimes, -, hseen⟩
    have hnone : ∀ file, s.seen file = none := fun file => congrFun hseen file
    refine ⟨fun file _ => congrFun htimes file, fun file m root hread => ?_,
      fun file m root hread => ?_, fun file m root hread => ?_⟩
    · rw [hnone] at hread
      cases hread
    · rw [hnone] at hread
      cases hread
    · rw [hnone] at hread
      cases hread
  step := by
    intro s a s' h hguard hs
    cases a with
    | edit d =>
        cases hs
        exact h.edit hguard
    | load path force =>
        cases hs
        exact h.loadAll _

end

/-- Configuration files are followed. In every run whose edits move the modification times of the
files they change forward, a load reads, in the order of the listing, exactly the files that have
changed since they were read last, or all by force, and makes the calls of `fromString` for each;
and then what was read last of every file listed is what it holds. -/
theorem confDir_current {V : Type} (datas : Datas V) (cwd : Str) {s : Loader}
    (hreach : (confSys datas cwd).Reaches (Dated cwd) s) (path : Str) (force : Bool)
    (hdated : Dated cwd s (.load path force))
    (hnodup : (s.disk.list (getAbsolutePath cwd path)).Nodup) :
    let files := s.disk.list (getAbsolutePath cwd path)
    let s' := loadFromConfDir datas cwd path force s
    (∃ read : List Str, read.Sublist files ∧
      (∀ file ∈ files, file ∈ read ↔ force = true ∨ ¬s.Current file) ∧
      s'.calls = s.calls ++ read.flatMap (callsOf datas s.disk)) ∧
    s'.disk = s.disk ∧ ∀ file ∈ files, s'.Current file := by
  obtain ⟨read, hsub, hread, hdisk, hcalls, -, hcurrent, -⟩ :=
    loadFiles datas force hnodup
      ((recorded_inductive datas cwd).invariant hreach) hdated
  exact ⟨⟨read, hsub, hread, hcalls⟩, hdisk, hcurrent⟩

section Witness

def appFile : Str := bytes "/srv/conf/app.yml"

def logFile : Str := bytes "/srv/conf/log.yml"

/-- Two files, of which one changes. -/
def twoFiles (appTime : Nat) (app : String) : Disk where
  list := fun _ => [appFile, logFile]
  mtime := fun file => if file = appFile then appTime else 7
  load := fun file => if file = appFile then some (serverPort app) else none

/-- The files as they are read first, and the other time of one of them. -/
def edited : Loader :=
  { loadFromConfDir portOnly (bytes "/srv/") (bytes "conf") false
      ⟨twoFiles 5 "Server", fun _ => 0, [], fun _ => none⟩ with disk := twoFiles 6 "server" }

theorem confDir_current_edited : ∃ read : List Str,
    read.Sublist [appFile, logFile] ∧ appFile ∈ read ∧ logFile ∉ read ∧
      (loadFromConfDir portOnly (bytes "/srv/") (bytes "conf") false edited).calls =
        edited.calls ++ read.flatMap (callsOf portOnly edited.disk) := by
  have hdated : ∀ time app, 0 < time → ∀ file, 0 < (twoFiles time app).mtime file := by
    intro time app htime file
    show 0 < if file = appFile then time else 7
    split
    · exact htime
    · decide
  have hreach : (confSys portOnly (bytes "/srv/")).Reaches (Dated (bytes "/srv/")) edited := by
    refine .step (.step (.init (s := ⟨twoFiles 5 "Server", fun _ => 0, [], fun _ => none⟩)
      ⟨rfl, rfl, rfl⟩) (a := .load (bytes "conf") false) ?_ rfl)
      (a := .edit (twoFiles 6 "server")) ?_ rfl
    · exact fun file _ => hdated 5 "Server" (by decide) file
    · intro file
      have hdisk : (loadFromConfDir portOnly (bytes "/srv/") (bytes "conf") false
          ⟨twoFiles 5 "Server", fun _ => 0, [], fun _ => none⟩).disk = twoFiles 5 "Server" := rfl
      rw [hdisk]
      show (if file = appFile then 5 else 7) < (if file = appFile then 6 else 7) ∨
        (if file = appFile then 5 else 7) = (if file = appFile then 6 else 7) ∧
        (if file = appFile then some (serverPort "Server") else none) =
          if file = appFile then some (serverPort "server") else none
      split
      · exact .inl (by decide)
      · exact .inr ⟨rfl, rfl⟩
  obtain ⟨⟨read, hsub, hread, hcalls⟩, -, -⟩ := confDir_current portOnly (bytes "/srv/") hreach
    (bytes "conf") false (fun file _ => hdated 6 "server" (by decide) file)
    (show [appFile, logFile].Nodup by decide +kernel)
  have hlist : edited.disk.list (getAbsolutePath (bytes "/srv/") (bytes "conf")) =
      [appFile, logFile] := rfl
  rw [hlist] at hsub hread
  refine ⟨read, hsub, (hread appFile List.mem_cons_self).mpr (.inr fun hcurrent => ?_),
    fun hmem => ?_, hcalls⟩
  · have htime : some (5 : Nat) = some 6 := congrArg (Option.map Prod.fst) hcurrent
    cases htime
  · rcases (hread logFile (List.mem_cons_of_mem _ List.mem_cons_self)).mp hmem with hforce | hold
    · cases hforce
    · exact hold rfl

end Witness

end Gxh.Config
